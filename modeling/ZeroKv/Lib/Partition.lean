/-
# ZeroKv.Lib.Partition — numbered objects, each on exactly one of several lists.

Objects are numbered in the order of their creation.  `Partition n lists` says that the lists, one for each
place, hold the objects below `n`, every one on exactly one list and once on it.  A transfer touches
two lists and keeps what they hold together, in any order; a creation touches one.
-/
import Mathlib.Data.List.Nodup
import Mathlib.Data.List.Perm.Basic

namespace ZeroKv

universe u

variable {P : Type u}

/-- Every object below `n` is on exactly one of the lists, once. -/
structure Partition (n : ℕ) (lists : P → List ℕ) : Prop where
  nodup : ∀ p, (lists p).Nodup
  cover : ∀ r, r < n ↔ ∃ p, r ∈ lists p
  unique : ∀ {p q r}, r ∈ lists p → r ∈ lists q → p = q

namespace Partition

variable {n : ℕ} {lists lists' : P → List ℕ} {p q : P} {r : ℕ}

theorem lt (h : Partition n lists) (hr : r ∈ lists p) : r < n := (h.cover r).mpr ⟨p, hr⟩

theorem existsUnique (h : Partition n lists) (hr : r < n) : ∃! p, r ∈ lists p := by
  obtain ⟨p, hp⟩ := (h.cover r).mp hr
  exact ⟨p, hp, fun q hq => h.unique hq hp⟩

theorem notMem (h : Partition n lists) (hr : r ∈ lists p) (hpq : p ≠ q) : r ∉ lists q :=
  fun hq => hpq (h.unique hr hq)

theorem nodup_append (h : Partition n lists) (hpq : p ≠ q) : (lists p ++ lists q).Nodup :=
  List.nodup_append.mpr ⟨h.nodup p, h.nodup q, fun _ ha _ hb hab => h.notMem ha hpq (hab ▸ hb)⟩

/-- At first everything is at one place. -/
theorem single (hnd : (lists p).Nodup) (hcover : ∀ r, r < n ↔ r ∈ lists p)
    (hrest : ∀ q, q ≠ p → lists q = []) : Partition n lists := by
  have hplace : ∀ {q r}, r ∈ lists q → q = p := by
    intro q r hr
    by_contra hq
    rw [hrest q hq] at hr
    cases hr
  refine ⟨?_, ?_, ?_⟩
  · intro q
    by_cases hq : q = p
    · exact hq ▸ hnd
    · rw [hrest q hq]
      exact List.nodup_nil
  · intro r
    rw [hcover]
    exact ⟨fun hr => ⟨p, hr⟩, fun ⟨q, hr⟩ => hplace hr ▸ hr⟩
  · intro q q' r hq hq'
    exact (hplace hq).trans (hplace hq').symm

/-- Two places exchange objects. -/
theorem exchange (h : Partition n lists) (hpq : p ≠ q)
    (hperm : (lists' p ++ lists' q).Perm (lists p ++ lists q))
    (hrest : ∀ o, o ≠ p → o ≠ q → lists' o = lists o) : Partition n lists' := by
  have hnd : (lists' p ++ lists' q).Nodup := hperm.nodup_iff.mpr (h.nodup_append hpq)
  obtain ⟨hndp, hndq, hdisj⟩ := List.nodup_append.mp hnd
  have hmem : ∀ r, r ∈ lists' p ∨ r ∈ lists' q ↔ r ∈ lists p ∨ r ∈ lists q := fun r => by
    simpa using hperm.mem_iff (a := r)
  refine ⟨?_, ?_, ?_⟩
  · intro o
    by_cases hp : o = p
    · exact hp ▸ hndp
    · by_cases hq : o = q
      · exact hq ▸ hndq
      · exact hrest o hp hq ▸ h.nodup o
  · intro r
    rw [h.cover]
    -- an object of the two places stays there, any other stays where it is
    constructor
    · rintro ⟨o, ho⟩
      by_cases hpair : r ∈ lists p ∨ r ∈ lists q
      · rcases (hmem r).mpr hpair with hr | hr
        · exact ⟨p, hr⟩
        · exact ⟨q, hr⟩
      · obtain ⟨hp, hq⟩ := not_or.mp hpair
        refine ⟨o, ?_⟩
        rw [hrest o (fun e => hp (e ▸ ho)) (fun e => hq (e ▸ ho))]
        exact ho
    · rintro ⟨o, ho⟩
      by_cases hpair : r ∈ lists' p ∨ r ∈ lists' q
      · rcases (hmem r).mp hpair with hr | hr
        · exact ⟨p, hr⟩
        · exact ⟨q, hr⟩
      · obtain ⟨hp, hq⟩ := not_or.mp hpair
        refine ⟨o, ?_⟩
        rw [← hrest o (fun e => hp (e ▸ ho)) (fun e => hq (e ▸ ho))]
        exact ho
  · intro o o' r ho ho'
    have hside : ∀ {a b}, r ∈ lists' a → r ∈ lists' b → (a = p ∨ a = q) → a ≠ b → b = p ∨ b = q := by
      intro a b ha hb hab hne
      by_contra hout
      obtain ⟨hbp, hbq⟩ := not_or.mp hout
      rw [hrest b hbp hbq] at hb
      rcases (hmem r).mp (hab.elim (fun e => .inl (e ▸ ha)) fun e => .inr (e ▸ ha)) with hr | hr
      · exact hbp (h.unique hb hr)
      · exact hbq (h.unique hb hr)
    by_contra hne
    by_cases hin : o = p ∨ o = q
    · rcases hin with rfl | rfl <;> rcases hside ho ho' (by simp) hne with rfl | rfl
      · exact hne rfl
      · exact hdisj r ho r ho' rfl
      · exact hdisj r ho' r ho rfl
      · exact hne rfl
    · by_cases hin' : o' = p ∨ o' = q
      · exact hin (hside ho' ho hin' (Ne.symm hne))
      · obtain ⟨hop, hoq⟩ := not_or.mp hin
        obtain ⟨hop', hoq'⟩ := not_or.mp hin'
        rw [hrest o hop hoq] at ho
        rw [hrest o' hop' hoq'] at ho'
        exact hne (h.unique ho ho')

/-- A new object at one place. -/
theorem grow (h : Partition n lists) (hnew : (lists' p).Perm (n :: lists p))
    (hrest : ∀ o, o ≠ p → lists' o = lists o) : Partition (n + 1) lists' := by
  have hmem : ∀ o r, r ∈ lists' o ↔ r ∈ lists o ∨ (o = p ∧ r = n) := by
    intro o r
    by_cases ho : o = p
    · subst ho
      rw [hnew.mem_iff, List.mem_cons]
      tauto
    · rw [hrest o ho]
      tauto
  refine ⟨?_, ?_, ?_⟩
  · intro o
    by_cases ho : o = p
    · subst ho
      exact hnew.nodup_iff.mpr (List.nodup_cons.mpr ⟨fun hn => Nat.lt_irrefl n (h.lt hn), h.nodup o⟩)
    · exact hrest o ho ▸ h.nodup o
  · intro r
    constructor
    · intro hr
      rcases Nat.lt_succ_iff_lt_or_eq.mp hr with hr | rfl
      · obtain ⟨o, ho⟩ := (h.cover r).mp hr
        exact ⟨o, (hmem o r).mpr (.inl ho)⟩
      · exact ⟨p, (hmem p r).mpr (.inr ⟨rfl, rfl⟩)⟩
    · rintro ⟨o, ho⟩
      rcases (hmem o r).mp ho with ho | ⟨-, rfl⟩
      · exact Nat.lt_succ_of_lt (h.lt ho)
      · exact Nat.lt_succ_self r
  · intro o o' r ho ho'
    rcases (hmem o r).mp ho with ho | ⟨rfl, rfl⟩ <;> rcases (hmem o' r).mp ho' with ho' | ⟨rfl, hr⟩
    · exact h.unique ho ho'
    · exact absurd (hr ▸ h.lt ho) (Nat.lt_irrefl _)
    · exact absurd (h.lt ho') (Nat.lt_irrefl _)
    · rfl

end Partition

end ZeroKv
