/-
# ZeroKv.Lib.Timeline — putting a call into the middle of a sequential order.

Not every concurrent object has a step of its own at which a call takes effect.  A search that finds
nothing took effect at some moment in its past, which only its end reveals, and a write to something that
was deleted meanwhile has to come just before the deletion.  The order of the calls then grows in the
middle.

What the later steps have to know about the order built so far are its *cuts*: between two neighbouring
entries the object is in some state, and certain calls are behind it.  A call may be inserted at a cut when
the entries after it do not notice; then no other cut is lost.
-/
import Mathlib.Data.Set.Basic
import ZeroKv.Lib.History

namespace ZeroKv

universe u v w

variable {A : Type u} {Op : Type v} {Ret : Type w}

/-! ## Calls that returned before another was made -/

/-- The calls that returned before call `j` was made. -/
def returnedBefore (h : List (Event Op Ret)) (j : ℕ) : Set ℕ :=
  { i | ∃ r o, [Event.res i r, Event.inv j o].Sublist h }

section

variable {h : List (Event Op Ret)} {i j : ℕ} {r : Ret} {o : Op}

theorem returnedBefore_res : returnedBefore (h ++ [.res i r]) j = returnedBefore h j := by
  ext k
  refine exists_congr fun r' => exists_congr fun o' => ?_
  rw [pair_sublist_concat]
  simp

theorem returnedBefore_inv_of_ne (hij : j ≠ i) :
    returnedBefore (h ++ [.inv i o]) j = returnedBefore h j := by
  ext k
  refine exists_congr fun r' => exists_congr fun o' => ?_
  rw [pair_sublist_concat]
  simp [hij]

/-- Before a new call all the others returned that have returned so far. -/
theorem res_of_returnedBefore (hi : i ∈ returnedBefore h j) : ∃ r, Event.res i r ∈ h := by
  obtain ⟨r, o, hs⟩ := hi
  exact ⟨r, hs.subset List.mem_cons_self⟩

end

/-! ## Cuts -/

namespace Spec

variable (S : Spec A Op Ret)

/-- There is a cut of the order with the calls of `B` before it, at which the object is in state `a`. -/
def Cut (lin : List (Entry Op Ret)) (B : Set ℕ) (a : A) : Prop :=
  ∃ l₁ l₂, lin = l₁ ++ l₂ ∧ S.Replay S.init l₁ a ∧ ∀ i ∈ B, i ∈ l₁.map Entry.id

/-- The same just before the entry `e`. -/
def CutAt (lin : List (Entry Op Ret)) (e : Entry Op Ret) (B : Set ℕ) (a : A) : Prop :=
  ∃ l₁ l₂, lin = l₁ ++ e :: l₂ ∧ S.Replay S.init l₁ a ∧ ∀ i ∈ B, i ∈ l₁.map Entry.id

/-- The entries of `l₂`, played after those of `l₁`, do not notice `x` in front of them. -/
def Rejoins (l₁ : List (Entry Op Ret)) (x : Entry Op Ret) (l₂ : List (Entry Op Ret)) : Prop :=
  ∀ w, w ≠ [] → w <+: l₂ → ∀ a, S.Replay S.init (l₁ ++ w) a → S.Replay S.init (l₁ ++ x :: w) a

end Spec

section Cuts

variable {S : Spec A Op Ret} {lin l₁ l₂ : List (Entry Op Ret)} {B B' : Set ℕ} {a b : A}
  {e x : Entry Op Ret} {h : List (Event Op Ret)}

theorem Spec.Replay.append_iff {l l' : List (Entry Op Ret)} :
    S.Replay a (l ++ l') b ↔ ∃ c, S.Replay a l c ∧ S.Replay c l' b := by
  constructor
  · intro h
    induction l generalizing a with
    | nil => exact ⟨a, rfl, h⟩
    | cons e l ih =>
        obtain ⟨c, hc, hb⟩ := ih h.2
        exact ⟨c, ⟨h.1, hc⟩, hb⟩
  · rintro ⟨c, hc, hb⟩
    exact hc.append hb

theorem Spec.Replay.unique {l : List (Entry Op Ret)} {b' : A} (hb : S.Replay a l b)
    (hb' : S.Replay a l b') : b = b' := by
  induction l generalizing a with
  | nil => exact hb.symm.trans hb'
  | cons e l ih => exact ih hb.2 hb'.2

namespace Spec

/-- The end of the order is a cut. -/
theorem Cut.last (ha : S.Replay S.init lin a) (hB : ∀ i ∈ B, i ∈ lin.map Entry.id) :
    S.Cut lin B a :=
  ⟨lin, [], (List.append_nil lin).symm, ha, hB⟩

theorem Cut.mono (hc : S.Cut lin B a) (hB : B' ⊆ B) : S.Cut lin B' a := by
  obtain ⟨l₁, l₂, he, ha, hi⟩ := hc
  exact ⟨l₁, l₂, he, ha, fun i h => hi i (hB h)⟩

/-- The cut behind an entry. -/
theorem CutAt.after (hc : S.CutAt lin e B a) (hrun : (S.run a e.op).1 = e.ret) :
    S.Cut lin B (S.run a e.op).2 := by
  obtain ⟨l₁, l₂, rfl, ha, hi⟩ := hc
  refine ⟨l₁ ++ [e], l₂, by simp, ha.concat hrun, fun i h => ?_⟩
  rw [List.map_append]
  exact List.mem_append_left _ (hi i h)

theorem CutAt.cut (hc : S.CutAt lin e B a) : S.Cut lin B a := by
  obtain ⟨l₁, l₂, he, h⟩ := hc
  exact ⟨l₁, e :: l₂, he, h⟩

theorem CutAt.mem (hc : S.CutAt lin e B a) : e ∈ lin := by
  obtain ⟨l₁, l₂, rfl, -⟩ := hc
  simp

theorem rejoins_nil : S.Rejoins l₁ x [] :=
  fun _ hne hw => absurd (List.prefix_nil.mp hw) hne

/-- A call that does not change the state makes no difference to what comes after it. -/
theorem Replay.insert_read (hb : S.Replay S.init (l₁ ++ l₂) b) (ha : S.Replay S.init l₁ a)
    (hx : S.run a x.op = (x.ret, a)) : S.Replay S.init (l₁ ++ x :: l₂) b := by
  obtain ⟨c, hc, hb⟩ := Replay.append_iff.mp hb
  obtain rfl := ha.unique hc
  refine ha.append ⟨by rw [hx], ?_⟩
  rw [hx]
  exact hb

theorem rejoins_of_read (ha : S.Replay S.init l₁ a) (hx : S.run a x.op = (x.ret, a)) :
    S.Rejoins l₁ x l₂ :=
  fun _ _ _ _ hb => hb.insert_read ha hx

/-- A call is not noticed when the entry after it wipes out what it did. -/
theorem rejoins_of_wiped (ha : S.Replay S.init l₁ a) (hx : (S.run a x.op).1 = x.ret)
    (he : S.run (S.run a x.op).2 e.op = S.run a e.op) : S.Rejoins l₁ x (e :: l₂) := by
  intro w hne hw b hb
  obtain ⟨c, hc, hb⟩ := Replay.append_iff.mp hb
  obtain rfl := ha.unique hc
  rcases List.prefix_cons_iff.mp hw with rfl | ⟨w, rfl, -⟩
  · exact absurd rfl hne
  · refine ha.append ⟨hx, ?_⟩
    obtain ⟨h₁, h₂⟩ := hb
    exact ⟨by rw [he]; exact h₁, by rw [he]; exact h₂⟩

/-- No cut is lost. -/
theorem Cut.insert (hc : S.Cut (l₁ ++ l₂) B a) (hj : S.Rejoins l₁ x l₂) :
    S.Cut (l₁ ++ x :: l₂) B a := by
  obtain ⟨k₁, k₂, he, ha, hi⟩ := hc
  rcases List.append_eq_append_iff.mp he with ⟨w, rfl, rfl⟩ | ⟨w, rfl, rfl⟩
  · cases w with
    | nil => exact ⟨l₁, x :: k₂, by simp, by simpa using ha, by simpa using hi⟩
    | cons y w =>
        refine ⟨l₁ ++ x :: y :: w, k₂, by simp, ?_, fun i h => ?_⟩
        · exact hj _ (List.cons_ne_nil y w) (List.prefix_append _ _) a ha
        · have := hi i h
          simp only [List.map_append, List.map_cons, List.mem_append, List.mem_cons] at this ⊢
          tauto
  · exact ⟨k₁, w ++ x :: l₂, by simp, ha, hi⟩

/-- No cut before an entry is lost, except where the new entry comes between. -/
theorem CutAt.insert (hc : S.CutAt (l₁ ++ l₂) e B a) (hj : S.Rejoins l₁ x l₂)
    (he : l₂.head? ≠ some e) : S.CutAt (l₁ ++ x :: l₂) e B a := by
  obtain ⟨k₁, k₂, heq, ha, hi⟩ := hc
  rcases List.append_eq_append_iff.mp heq with ⟨w, rfl, rfl⟩ | ⟨w, rfl, hw⟩
  · cases w with
    | nil => exact absurd rfl he
    | cons y w =>
        refine ⟨l₁ ++ x :: y :: w, k₂, by simp, ?_, fun i h => ?_⟩
        · exact hj _ (List.cons_ne_nil y w) (List.prefix_append _ _) a ha
        · have := hi i h
          simp only [List.map_append, List.map_cons, List.mem_append, List.mem_cons] at this ⊢
          tauto
  · cases w with
    | nil =>
        rw [List.nil_append] at hw
        exact absurd (by rw [← hw]; rfl) he
    | cons y w =>
        cases hw
        exact ⟨k₁, w ++ x :: l₂, by simp, ha, hi⟩

/-- A call that does not change the state may come just before any entry. -/
theorem CutAt.insert_read (hc : S.CutAt (l₁ ++ l₂) e B a) (hb : S.Replay S.init l₁ b)
    (hx : S.run b x.op = (x.ret, b)) : S.CutAt (l₁ ++ x :: l₂) e B a := by
  obtain ⟨k₁, k₂, heq, ha, hi⟩ := hc
  -- the new entry goes to the left of the cut, unless the cut is before it
  have hleft : ∀ w, k₁ = l₁ ++ w → l₂ = w ++ e :: k₂ → S.CutAt (l₁ ++ x :: l₂) e B a := by
    rintro w rfl rfl
    refine ⟨l₁ ++ x :: w, k₂, by simp, ha.insert_read hb hx, fun i h => ?_⟩
    have := hi i h
    simp only [List.map_append, List.map_cons, List.mem_append, List.mem_cons] at this ⊢
    tauto
  rcases List.append_eq_append_iff.mp heq with ⟨w, hk, hl⟩ | ⟨w, hl, hk⟩
  · exact hleft w hk hl
  · cases w with
    | nil => exact hleft [] (by simpa using hl.symm) (by simpa using hk.symm)
    | cons y w =>
        subst hl
        cases hk
        exact ⟨k₁, w ++ x :: l₂, by simp, ha, hi⟩

end Spec

/-- A call is put into the order, after those that returned before it was made. -/
theorem Linearizes.insert (hl : Linearizes S h (l₁ ++ l₂)) (hin : .inv x.id x.op ∈ h)
    (hnew : x.id ∉ (l₁ ++ l₂).map Entry.id)
    (hafter : ∀ i ∈ returnedBefore h x.id, i ∈ l₁.map Entry.id)
    (hb : S.Replay S.init (l₁ ++ x :: l₂) b) : Linearizes S h (l₁ ++ x :: l₂) where
  nodup := by
    rw [List.map_append, List.map_cons, List.nodup_middle, List.nodup_cons, ← List.map_append]
    exact ⟨hnew, hl.nodup⟩
  invoked e he := by
    rcases List.mem_append.mp he with he | he
    · exact hl.invoked e (List.mem_append_left _ he)
    · rcases List.mem_cons.mp he with rfl | he
      · exact hin
      · exact hl.invoked e (List.mem_append_right _ he)
  completed i r hr := by
    obtain ⟨e, he, hi⟩ := hl.completed i r hr
    refine ⟨e, ?_, hi⟩
    simp only [List.mem_append, List.mem_cons] at he ⊢
    tauto
  order i r j o hs hj := by
    have hsub : ((l₁ ++ l₂).map Entry.id).Sublist ((l₁ ++ x :: l₂).map Entry.id) := by
      simp
    by_cases hjx : j = x.id
    · subst hjx
      have hi := hafter i ⟨r, o, hs⟩
      rw [List.map_append, List.map_cons]
      exact (List.singleton_sublist.mpr hi).append (List.singleton_sublist.mpr List.mem_cons_self)
    · refine (hl.order i r j o hs ?_).trans hsub
      simp only [List.map_append, List.map_cons, List.mem_append, List.mem_cons] at hj ⊢
      tauto
  legal := ⟨b, hb⟩

end Cuts

end ZeroKv
