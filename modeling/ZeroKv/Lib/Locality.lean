/-
# ZeroKv.Lib.Locality — objects that are linearizable one by one are linearizable together.

A history over several objects falls into one history for each object.  When each of these has a sequential
order that explains it, the orders can be merged into one that explains the whole: take the first entry of
one of the orders, of a call that was made before the calls at the head of the others, and go on with the
rest.  No call is then put before one that had returned when it was made.

The second half takes a linearizable history from one sequential object to another that simulates it.
-/
import Mathlib.Algebra.Order.BigOperators.Group.Finset
import Mathlib.Data.Finset.Max
import ZeroKv.Lib.Timeline

namespace ZeroKv

universe u v w x

/-! ## Two elements of a list -/

section Pairs

variable {α : Type u} {l : List α} {a b : α}

/-- Two elements of a list are there in one order or in the other. -/
theorem pair_sublist_total (ha : a ∈ l) (hb : b ∈ l) (hne : a ≠ b) :
    [a, b].Sublist l ∨ [b, a].Sublist l := by
  obtain ⟨l₁, l₂, rfl⟩ := List.append_of_mem ha
  rcases List.mem_append.mp hb with hb | hb
  · exact .inr (.append (List.singleton_sublist.mpr hb) (List.singleton_sublist.mpr List.mem_cons_self))
  · have hb := (List.mem_cons.mp hb).resolve_left (Ne.symm hne)
    exact .inl ((List.cons_sublist_cons.mpr (List.singleton_sublist.mpr hb)).trans
      (List.sublist_append_right _ _))

/-- Without repetitions they are in one order only. -/
theorem idxOf_lt_of_pair_sublist [DecidableEq α] (hl : l.Nodup) (h : [a, b].Sublist l) :
    l.idxOf a < l.idxOf b := by
  obtain ⟨l₁, l₂, rfl, ha, hb⟩ := List.cons_sublist_iff.mp h
  have hb := List.singleton_sublist.mp hb
  have hnot : b ∉ l₁ := fun hb' => (List.nodup_append.mp hl).2.2 b hb' b hb rfl
  rw [List.idxOf_append_of_mem ha, List.idxOf_append_of_notMem hnot]
  exact (List.idxOf_lt_length_of_mem ha).trans_le (Nat.le_add_right _ _)

theorem pair_sublist_asymm (hl : l.Nodup) (h : [a, b].Sublist l) : ¬ [b, a].Sublist l := by
  classical
  exact fun h' => lt_asymm (idxOf_lt_of_pair_sublist hl h) (idxOf_lt_of_pair_sublist hl h')

end Pairs

/-! ## Merging orders -/

section Merge

variable {ι : Type x} [Fintype ι] [DecidableEq ι] {α : Type u}

/-- **Merging.**  `prec` says what must come first.  Every list respects it, and it is given by intervals: what
comes before `e` and not before `e'` shows that `e'` began before `e`, as `rank` has it.  Then the lists are
the parts of one list that respects it. -/
theorem exists_merge (part : α → ι) (rank : α → ℕ) (prec : α → α → Prop) (L : ι → List α)
    (hpart : ∀ i, ∀ a ∈ L i, part a = i) (hirrefl : ∀ i, ∀ a ∈ L i, ¬ prec a a)
    (hrespect : ∀ i, (L i).Pairwise fun a b => ¬ prec b a)
    (hrank : ∀ i, ∀ a ∈ L i, ∀ j, ∀ e ∈ L j, ∀ j', ∀ e' ∈ L j', prec a e → ¬ prec a e' →
      rank e' < rank e) :
    ∃ l : List α, (∀ i, l.filter (part · = i) = L i) ∧ l.Pairwise fun a b => ¬ prec b a := by
  induction hk : ∑ i, (L i).length using Nat.strong_induction_on generalizing L with
  | _ k ih =>
      by_cases hne : (Finset.univ.filter fun i => L i ≠ []).Nonempty
      · -- the list whose first element began before those of the others
        obtain ⟨i, hi, hmin⟩ := Finset.exists_min_image _ (fun i => ((L i).head?.map rank).getD 0) hne
        obtain ⟨e, rest, he⟩ := List.exists_cons_of_ne_nil (Finset.mem_filter.mp hi).2
        have hei : part e = i := hpart i e (he ▸ List.mem_cons_self)
        have hfirst : ∀ j f c, L j = f :: c → rank e ≤ rank f := by
          intro j f c hj
          have := hmin j (Finset.mem_filter.mpr ⟨Finset.mem_univ j, by simp [hj]⟩)
          simpa [he, hj] using this
        -- nothing that is left has to come before it
        have hfree : ∀ j, ∀ a ∈ L j, ¬ prec a e := by
          intro j a ha hprec
          obtain ⟨f, c, hj⟩ := List.exists_cons_of_ne_nil (List.ne_nil_of_mem ha)
          have hfj : f ∈ L j := hj ▸ List.mem_cons_self
          have hf : ¬ prec a f := by
            rcases List.mem_cons.mp (hj ▸ ha) with rfl | ha'
            · exact hirrefl j a hfj
            · exact (List.pairwise_cons.mp (hj ▸ hrespect j)).1 a ha'
          have hlt := hrank j a ha i e (he ▸ List.mem_cons_self) j f hfj hprec hf
          exact absurd (hfirst j f c hj) (Nat.not_le.mpr hlt)
        have hsub : ∀ j, (Function.update L i rest j).Sublist (L j) := by
          intro j
          by_cases hj : j = i
          · subst hj
            rw [Function.update_self, he]
            exact List.sublist_cons_self e rest
          · rw [Function.update_of_ne hj]
        have hlt : ∑ j, (Function.update L i rest j).length < k := by
          rw [← hk]
          refine Finset.sum_lt_sum (fun j _ => (hsub j).length_le) ⟨i, Finset.mem_univ i, ?_⟩
          rw [Function.update_self, he]
          exact Nat.lt_succ_self _
        obtain ⟨l, hl, hp⟩ := ih _ hlt (Function.update L i rest)
          (fun j a ha => hpart j a ((hsub j).subset ha))
          (fun j a ha => hirrefl j a ((hsub j).subset ha))
          (fun j => (hrespect j).sublist (hsub j))
          (fun j a ha j' e he j'' e' he' => hrank j a ((hsub j).subset ha) j' e ((hsub j').subset he) j'' e'
            ((hsub j'').subset he')) rfl
        refine ⟨e :: l, fun j => ?_, List.pairwise_cons.mpr ⟨fun a ha => ?_, hp⟩⟩
        · by_cases hj : j = i
          · subst hj
            rw [List.filter_cons_of_pos (by simpa using hei), hl, Function.update_self, he]
          · rw [List.filter_cons_of_neg (by simpa [hei] using Ne.symm hj), hl, Function.update_of_ne hj]
        · refine hfree (part a) a ((hsub _).subset ?_)
          rw [← hl]
          exact List.mem_filter.mpr ⟨ha, by simp⟩
      · refine ⟨[], fun i => ?_, .nil⟩
        rw [Finset.not_nonempty_iff_eq_empty, Finset.filter_eq_empty_iff] at hne
        exact (not_not.mp (hne (Finset.mem_univ i))).symm

end Merge

/-! ## Objects side by side -/

section Pi

variable {ι : Type x} [DecidableEq ι] {A : ι → Type u} {Op : Type v} {Ret : Type w} {obj : Op → ι}
  {S : ∀ i, Spec (A i) Op Ret}

/-- Several objects as one; `obj` says which of them a call is for. -/
def Spec.pi (obj : Op → ι) (S : ∀ i, Spec (A i) Op Ret) : Spec (∀ i, A i) Op Ret where
  init i := (S i).init
  run a op :=
    (((S (obj op)).run (a (obj op)) op).1,
      Function.update a (obj op) ((S (obj op)).run (a (obj op)) op).2)

/-- Every object sees its own calls only. -/
theorem Spec.Replay.pi {a b : ∀ i, A i} {lin : List (Entry Op Ret)}
    (h : ∀ i, (S i).Replay (a i) (lin.filter fun e => obj e.op = i) (b i)) :
    (Spec.pi obj S).Replay a lin b := by
  induction lin generalizing a with
  | nil => exact funext h
  | cons e lin ih =>
      have he := h (obj e.op)
      rw [List.filter_cons_of_pos (by simp)] at he
      refine ⟨he.1, ih fun i => ?_⟩
      by_cases hi : i = obj e.op
      · subst hi
        simpa only [Spec.pi, Function.update_self] using he.2
      · have hrest := h i
        rw [List.filter_cons_of_neg (by simpa using Ne.symm hi)] at hrest
        simpa only [Spec.pi, Function.update_of_ne hi] using hrest

/-- The call that an event belongs to. -/
def Event.call : Event Op Ret → ℕ
  | .inv i _ | .res i _ => i

/-- The call that an event makes. -/
def Event.made : Event Op Ret → Option ℕ
  | .inv i _ => some i
  | .res _ _ => none

/-- The calls of a history, in the order in which they were made. -/
def callsMade (h : List (Event Op Ret)) : List ℕ := h.filterMap Event.made

theorem pair_sublist_callsMade {h : List (Event Op Ret)} {i j : ℕ} {o o' : Op}
    (hs : [Event.inv i o, .inv j o'].Sublist h) : [i, j].Sublist (callsMade h) :=
  hs.filterMap Event.made

/-- What returned before `j` was made and not before `j'` shows that `j'` was made first. -/
theorem inv_before {h : List (Event Op Ret)} {i j j' : ℕ} {o' : Op} (hi : i ∈ returnedBefore h j)
    (hi' : i ∉ returnedBefore h j') (hj' : .inv j' o' ∈ h) : [j', j].Sublist (callsMade h) := by
  obtain ⟨r, o, hs⟩ := hi
  obtain ⟨h₁, h₂, rfl, hr, ho⟩ := List.cons_sublist_iff.mp hs
  have hr' : .inv j' o' ∈ h₁ := by
    refine (List.mem_append.mp hj').resolve_right fun hj' => hi' ⟨r, o', ?_⟩
    exact .append (List.singleton_sublist.mpr hr) (List.singleton_sublist.mpr hj')
  exact pair_sublist_callsMade (.append (List.singleton_sublist.mpr hr') ho)

section Parts

variable {part : ℕ → ι} {h : List (Event Op Ret)} {L : ι → List (Entry Op Ret)}

/-- The part of a history that belongs to one object. -/
def onPart (part : ℕ → ι) (h : List (Event Op Ret)) (i : ι) : List (Event Op Ret) :=
  h.filter fun e => part e.call = i

theorem mem_onPart {e : Event Op Ret} : e ∈ onPart part h (part e.call) ↔ e ∈ h := by
  simp [onPart]

/-- A pair of events of one object is a pair of its part. -/
theorem pair_sublist_onPart {i j : ℕ} {r : Ret} {o : Op}
    (hs : [Event.res i r, .inv j o].Sublist h) (hij : part i = part j) :
    [Event.res i r, .inv j o].Sublist (onPart part h (part j)) := by
  have hf := hs.filter fun e => part e.call = part j
  rwa [List.filter_eq_self.mpr (by simp [Event.call, hij])] at hf

variable (hL : ∀ i, Linearizes (S i) (onPart part h i) (L i))

include hL

theorem part_of_mem {i : ι} {e : Entry Op Ret} (he : e ∈ L i) : part e.id = i := by
  have hin := (hL i).invoked e he
  exact of_decide_eq_true (List.mem_filter.mp hin).2

theorem inv_of_mem {i : ι} {e : Entry Op Ret} (he : e ∈ L i) : .inv e.id e.op ∈ h :=
  List.mem_of_mem_filter ((hL i).invoked e he)

/-- The order of one object respects the real time of the whole history. -/
theorem order_of_mem {i : ι} {e e' : Entry Op Ret} (he : e ∈ L i) (he' : e' ∈ L i)
    (hprec : e'.id ∈ returnedBefore h e.id) : [e'.id, e.id].Sublist ((L i).map Entry.id) := by
  obtain ⟨r, o, hs⟩ := hprec
  have hpe := part_of_mem hL he
  have hs := pair_sublist_onPart hs ((part_of_mem hL he').trans hpe.symm)
  rw [hpe] at hs
  exact (hL i).order _ _ _ _ hs (List.mem_map_of_mem he)

/-- **The orders of the objects merge into one that respects real time.** -/
theorem exists_merged [Fintype ι] (hcalls : (callsMade h).Nodup) :
    ∃ lin : List (Entry Op Ret), (∀ i, lin.filter (fun e => part e.id = i) = L i) ∧
      lin.Pairwise fun e e' => e'.id ∉ returnedBefore h e.id := by
  refine exists_merge (fun e => part e.id) (fun e => (callsMade h).idxOf e.id)
    (fun e e' => e.id ∈ returnedBefore h e'.id) L (fun i e he => part_of_mem hL he) ?_ ?_ ?_
  · intro i e he hprec
    have := (order_of_mem hL he he hprec).nodup (hL i).nodup
    simp at this
  · intro i
    refine List.pairwise_iff_forall_sublist.mpr fun {e e'} hs hprec => ?_
    have he := hs.subset (List.mem_cons_self)
    have he' := hs.subset (List.mem_cons_of_mem _ List.mem_cons_self)
    exact pair_sublist_asymm (hL i).nodup (hs.map Entry.id) (order_of_mem hL he he' hprec)
  · intro i a ha j e he j' e' he' hprec hnot
    exact idxOf_lt_of_pair_sublist hcalls (inv_before hprec hnot (inv_of_mem hL he'))

/-- **Locality.**  If the part of every object is linearizable, the whole history is. -/
theorem Linearizes.locality [Fintype ι] (obj : Op → ι) (hcalls : (callsMade h).Nodup)
    (hobj : ∀ j o, .inv j o ∈ h → obj o = part j) : Linearizable (Spec.pi obj S) h := by
  obtain ⟨lin, hlin, hpair⟩ := exists_merged hL hcalls
  -- the merged order has the entries of all parts, each in the order of its part
  have hmem : ∀ e, e ∈ lin → e ∈ L (part e.id) := fun e he => by
    rw [← hlin]
    exact List.mem_filter.mpr ⟨he, by simp⟩
  have hof : ∀ i e, e ∈ L i → e ∈ lin := fun i e he => by
    rw [← hlin] at he
    exact List.mem_of_mem_filter he
  have hnodup : (lin.map Entry.id).Nodup := by
    refine List.pairwise_map.mpr (List.pairwise_iff_forall_sublist.mpr fun {e e'} hs he => ?_)
    have hs' := hs.filter fun x => part x.id = part e.id
    rw [List.filter_cons_of_pos (by simp), List.filter_cons_of_pos (by simp [he]), List.filter_nil,
      hlin] at hs'
    have := (hs'.map Entry.id).nodup (hL _).nodup
    simp [he] at this
  choose b hb using fun i => (hL i).legal
  refine ⟨lin, hnodup, fun e he => inv_of_mem hL (hmem e he), ?_, ?_, b, Spec.Replay.pi fun i => ?_⟩
  · intro i r hr
    obtain ⟨e, he, hid, hret⟩ := (hL (part i)).completed i r (mem_onPart.mpr hr)
    exact ⟨e, hof _ e he, hid, hret⟩
  · intro i r j o hs hj
    obtain ⟨e', he', rfl⟩ := List.mem_map.mp hj
    obtain ⟨e, he, rfl, -⟩ :=
      (hL (part i)).completed i r (mem_onPart.mpr (hs.subset List.mem_cons_self))
    have hprec : e.id ∈ returnedBefore h e'.id := ⟨r, o, hs⟩
    have hne : e ≠ e' := by
      rintro rfl
      have := (order_of_mem hL (hmem e he') (hmem e he') hprec).nodup (hL _).nodup
      simp at this
    -- two entries stand in one order or the other, and the merge never reverses real time
    rcases pair_sublist_total (hof _ e he) he' hne with hs | hs
    · exact hs.map Entry.id
    · exact absurd hprec (List.pairwise_iff_forall_sublist.mp hpair hs)
  · have hsame : lin.filter (fun e => obj e.op = i) = L i := by
      rw [← hlin i]
      refine List.filter_congr fun e he => ?_
      rw [hobj _ _ (inv_of_mem hL (hmem e he))]
    rw [hsame]
    exact hb i

end Parts

end Pi

/-! ## From one object to another -/

section Simulation

variable {A : Type u} {B : Type x} {Op : Type v} {Ret : Type w} {S : Spec A Op Ret} {S' : Spec B Op Ret}
  {R : A → B → Prop} {h : List (Event Op Ret)}

theorem Spec.Replay.simulate
    (hR : ∀ a b op, R a b → (S.run a op).1 = (S'.run b op).1 ∧ R (S.run a op).2 (S'.run b op).2)
    {a a' : A} {b : B} (hab : R a b) {lin : List (Entry Op Ret)} (hl : S.Replay a lin a') :
    ∃ b', S'.Replay b lin b' := by
  induction lin generalizing a b with
  | nil => exact ⟨b, rfl⟩
  | cons e lin ih =>
      obtain ⟨hret, hnext⟩ := hR a b e.op hab
      obtain ⟨b', hb'⟩ := ih hnext hl.2
      exact ⟨b', hret.symm.trans hl.1, hb'⟩

/-- What one object explains, an object explains that answers like it. -/
theorem Linearizable.simulate (h0 : R S.init S'.init)
    (hR : ∀ a b op, R a b → (S.run a op).1 = (S'.run b op).1 ∧ R (S.run a op).2 (S'.run b op).2)
    (hl : Linearizable S h) : Linearizable S' h := by
  obtain ⟨lin, hl⟩ := hl
  obtain ⟨a, ha⟩ := hl.legal
  exact ⟨lin, hl.nodup, hl.invoked, hl.completed, hl.order, Spec.Replay.simulate hR h0 ha⟩

end Simulation

/-! ## Other numbers for the calls -/

section Rename

variable {A : Type u} {Op : Type v} {Ret : Type w} {S : Spec A Op Ret} {h : List (Event Op Ret)}
  {f : ℕ → ℕ}

def Event.rename (f : ℕ → ℕ) : Event Op Ret → Event Op Ret
  | .inv i o => .inv (f i) o
  | .res i r => .res (f i) r

def Entry.rename (f : ℕ → ℕ) (e : Entry Op Ret) : Entry Op Ret := { e with id := f e.id }

theorem Spec.Replay.rename {a b : A} {lin : List (Entry Op Ret)} (hl : S.Replay a lin b) :
    S.Replay a (lin.map (Entry.rename f)) b := by
  induction lin generalizing a with
  | nil => exact hl
  | cons e lin ih => exact ⟨hl.1, ih hl.2⟩

theorem Linearizes.rename (hf : f.Injective) {lin : List (Entry Op Ret)} (hl : Linearizes S h lin) :
    Linearizes S (h.map (Event.rename f)) (lin.map (Entry.rename f)) := by
  have hids : (lin.map (Entry.rename f)).map Entry.id = (lin.map Entry.id).map f := by
    simp [Entry.rename]
  refine ⟨?_, ?_, ?_, ?_, ?_⟩
  · rw [hids]
    exact hl.nodup.map hf
  · intro e' he'
    obtain ⟨e, he, rfl⟩ := List.mem_map.mp he'
    exact List.mem_map.mpr ⟨_, hl.invoked e he, rfl⟩
  · intro i r hr
    obtain ⟨ev, hev, he⟩ := List.mem_map.mp hr
    cases ev with
    | inv j o => cases he
    | res j r' =>
        cases he
        obtain ⟨e, he, rfl, rfl⟩ := hl.completed j _ hev
        exact ⟨e.rename f, List.mem_map_of_mem he, rfl, rfl⟩
  · intro i r j o hs hj
    rw [hids] at hj ⊢
    obtain ⟨pair, hpair, he⟩ := List.sublist_map_iff.mp hs
    obtain ⟨ev, ev', rfl⟩ : ∃ ev ev', pair = [ev, ev'] :=
      List.length_eq_two.mp (by simpa using (congrArg List.length he).symm)
    obtain ⟨he₁, he₂⟩ : .res i r = ev.rename f ∧ .inv j o = ev'.rename f := by simpa using he
    cases ev with
    | inv => cases he₁
    | res i' r' =>
        cases ev' with
        | res => cases he₂
        | inv j' o' =>
            cases he₁
            cases he₂
            obtain ⟨k, hk, hkj⟩ := List.mem_map.mp hj
            exact (hl.order _ _ _ _ hpair (hf hkj ▸ hk)).map f
  · obtain ⟨a, ha⟩ := hl.legal
    exact ⟨a, ha.rename⟩

end Rename

end ZeroKv
