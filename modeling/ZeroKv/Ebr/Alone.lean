/-
# ZeroKv.Ebr.Alone — the reclamation domain with a single thread.

When only one thread ever uses the domain, each of its calls runs to the end without interference, and
what it does can be said in one line.  `pin` and `Guard::drop` write the one claimed slot; `retire` adds a
record with the tag of the current epoch.  A collection finds that slot unpinned, because it is started by
`Guard::drop` right after the store, so it always advances the epoch, and then frees exactly the records
that the new epoch makes eligible.

The records that are not freed yet are the nodes of the three intrusive bags; `Bags` keeps the lists
behind them.
-/
import Mathlib.Data.List.Nodup
import Mathlib.Logic.Relation
import ZeroKv.Ebr.Domain
import ZeroKv.Lib.Chain

namespace ZeroKv.Ebr

variable {G : Type}

/-! ## Calls of a single thread -/

/-- One access of a thread that runs alone; no compare-exchange fails. -/
def Go (x y : Domain G × Local G) : Prop := stepRun x.1 x.2 true = some y

abbrev Runs : Domain G × Local G → Domain G × Local G → Prop := Relation.ReflTransGen Go

/-- Run to the end of the call, for at most `fuel` accesses. -/
def finish : ℕ → Domain G → Local G → Option (Domain G × Local G)
  | fuel, d, l =>
    match l.pc, fuel with
    | .idle, _ => some (d, l)
    | _, 0 => none
    | _, fuel + 1 => (stepRun d l true).bind fun x => finish fuel x.1 x.2

/-- One call, run alone. -/
def call (fuel : ℕ) (d : Domain G) (l : Local G) (a : Action G) : Option (Domain G × Local G) :=
  (step d l a).bind fun x => finish fuel x.1 x.2

theorem finish_idle {fuel : ℕ} {d : Domain G} {l : Local G} (h : l.pc = .idle) :
    finish fuel d l = some (d, l) := by
  unfold finish
  simp [h]

/-- A run to the end of the call is what `finish` computes, with enough fuel. -/
theorem finish_of_runs {d d' : Domain G} {l l' : Local G} (hrun : Runs (d, l) (d', l'))
    (hidle : l'.pc = .idle) : ∃ n, ∀ fuel ≥ n, finish fuel d l = some (d', l') := by
  suffices h : ∀ x, Runs x (d', l') → ∃ n, ∀ fuel ≥ n, finish fuel x.1 x.2 = some (d', l') from
    h _ hrun
  intro x hx
  induction hx using Relation.ReflTransGen.head_induction_on with
  | refl => exact ⟨0, fun fuel _ => finish_idle hidle⟩
  | @head x y hxy _ ih =>
      obtain ⟨n, hn⟩ := ih
      refine ⟨n + 1, fun fuel hf => ?_⟩
      obtain ⟨k, rfl⟩ := Nat.exists_eq_add_of_le' (Nat.le_of_add_left_le hf)
      have hgo : stepRun x.1 x.2 true = some y := hxy
      have hpc : x.2.pc ≠ .idle := by
        intro hpc
        rw [stepRun, hpc] at hgo
        cases hgo
      unfold finish
      split
      · exact absurd ‹_› hpc
      · omega
      · rename_i fuel' _ heq
        obtain rfl : k = fuel' := by omega
        rw [hgo]
        exact hn k (by omega)

theorem call_of_runs {d d₁ d' : Domain G} {l l₁ l' : Local G} {a : Action G}
    (hstep : step d l a = some (d₁, l₁)) (hrun : Runs (d₁, l₁) (d', l')) (hidle : l'.pc = .idle) :
    ∃ n, ∀ fuel ≥ n, call fuel d l a = some (d', l') := by
  obtain ⟨n, hn⟩ := finish_of_runs hrun hidle
  refine ⟨n, fun fuel hf => ?_⟩
  rw [call, hstep]
  exact hn fuel hf

theorem Local.at_idle {l : Local G} (h : l.pc = .idle) : { l with pc := .idle } = l := by
  rw [← h]

/-! ## The lists behind the bags -/

/-- What is retired by a record. -/
def Domain.garbageOf (d : Domain G) (r : ℕ) : Option G := (d.recs[r]?).map Retired.garbage

/-- What a write to the `next` pointers and a run of the drop functions leave as it is. -/
structure Kept (d d' : Domain G) : Prop where
  hwm : d'.hwm = d.hwm
  length : d'.recs.length = d.recs.length
  garbage : ∀ r, d'.garbageOf r = d.garbageOf r
  tag : ∀ r, d'.tagOf r = d.tagOf r

theorem Kept.refl (d : Domain G) : Kept d d := ⟨rfl, rfl, fun _ => rfl, fun _ => rfl⟩

theorem Kept.trans {d d' d'' : Domain G} (h : Kept d d') (h' : Kept d' d'') : Kept d d'' where
  hwm := h'.hwm.trans h.hwm
  length := h'.length.trans h.length
  garbage r := (h'.garbage r).trans (h.garbage r)
  tag r := (h'.tag r).trans (h.tag r)

/-- Only the records and the high-water mark matter. -/
theorem Kept.of_recs {d₀ d d' : Domain G} (h : Kept d d') (hrecs : d.recs = d₀.recs)
    (hhwm : d.hwm = d₀.hwm) : Kept d₀ d' where
  hwm := h.hwm.trans hhwm
  length := h.length.trans (congrArg List.length hrecs)
  garbage r := (h.garbage r).trans (by rw [Domain.garbageOf, hrecs, Domain.garbageOf])
  tag r := (h.tag r).trans (by rw [Domain.tagOf, hrecs, Domain.tagOf])

theorem Kept.setNext (d : Domain G) (r : ℕ) (n : Option ℕ) : Kept d (d.setNext r n) where
  hwm := rfl
  length := d.setNext_length r n
  garbage q := by
    by_cases h : r = q
    · subst h
      cases hq : d.recs[r]? <;> simp [Domain.garbageOf, Domain.setNext, hq]
    · simp [Domain.garbageOf, Domain.setNext, h]
  tag q := d.setNext_tagOf r n q

theorem Kept.eligible {d d' : Domain G} (h : Kept d d') (r cur : ℕ) :
    d'.eligible r cur ↔ d.eligible r cur := by
  simp only [Domain.eligible, h.tag]

section Walk

variable {d : Domain G} {l : Local G} {cur b : ℕ} {xs ys zs : List ℕ} {node keep : Option ℕ}
  {old : ℕ → Bool}

/-- Writing the `next` pointer of a record outside the list does not change the list. -/
theorem Linked.setNext {head : Option ℕ} {x : ℕ} (h : Linked d.nextOf head xs) (hx : x ∉ xs)
    (n : Option ℕ) : Linked (d.setNext x n).nextOf head xs :=
  h.congr fun _ hr => d.setNext_nextOf_of_ne (ne_of_mem_of_not_mem hr hx).symm n

/-- The walk over a detached chain frees the old records and threads the others onto the keep-list. -/
theorem runs_walk (hold : ∀ r, d.eligible r cur ↔ old r = true) (hx : Linked d.nextOf node xs)
    (hy : Linked d.nextOf keep ys) (hnd : (xs ++ ys).Nodup) (hlt : ∀ r ∈ xs, r < d.recs.length) :
    ∃ d' keep', Runs (d, { l with pc := .bagWalk cur b node keep })
        (d', { l with pc := .bagWalk cur b none keep' }) ∧
      Linked d'.nextOf keep' ((xs.filter fun r => !old r).reverse ++ ys) ∧
      d'.dropped = d.dropped ++ xs.filter old ∧
      Kept d d' ∧ d'.epoch = d.epoch ∧ d'.bags = d.bags ∧
      ∀ r, r ∉ xs → d'.nextOf r = d.nextOf r := by
  induction xs generalizing d node keep ys with
  | nil =>
      obtain rfl : node = none := hx
      exact ⟨d, keep, .refl, by simpa using hy, by simp, .refl d, rfl, rfl, fun _ _ => rfl⟩
  | cons x xs ih =>
      obtain ⟨rfl, hxs⟩ := linked_cons.mp hx
      obtain ⟨hxout, hnd'⟩ := List.nodup_cons.mp hnd
      obtain ⟨hxxs, hxys⟩ : x ∉ xs ∧ x ∉ ys := by simpa using hxout
      have hxlt : x < d.recs.length := hlt x List.mem_cons_self
      have hlt' : ∀ r ∈ xs, r < d.recs.length := fun r hr => hlt r (List.mem_cons_of_mem x hr)
      cases he : old x with
      | true =>
          -- the record is freed; only the log changes
          have hgo : Go (d, { l with pc := .bagWalk cur b (some x) keep })
              ({ d with dropped := d.dropped ++ [x] },
                { l with pc := .bagWalk cur b (d.nextOf x) keep }) := by
            simp [Go, stepRun, (hold x).mpr he]
          obtain ⟨d', keep', hrun, hk, hd, hkept, hep, hbags, hnext⟩ :=
            ih (d := { d with dropped := d.dropped ++ [x] }) hold hxs hy hnd' hlt'
          refine ⟨d', keep', .head hgo hrun, ?_, ?_, ?_, hep, hbags, ?_⟩
          · simpa [he] using hk
          · simpa [he] using hd
          · exact hkept.of_recs rfl rfl
          · intro r hr
            exact hnext r fun hm => hr (List.mem_cons_of_mem x hm)
      | false =>
          have hgo : Go (d, { l with pc := .bagWalk cur b (some x) keep })
              (d.setNext x keep, { l with pc := .bagWalk cur b (d.nextOf x) (some x) }) := by
            simp [Go, stepRun, mt (hold x).mp (by simp [he])]
          have hkeep : Linked (d.setNext x keep).nextOf (some x) (x :: ys) := by
            refine ⟨rfl, ?_⟩
            rw [d.setNext_nextOf_self hxlt]
            exact Linked.setNext hy hxys keep
          obtain ⟨d', keep', hrun, hk, hd, hkept, hep, hbags, hnext⟩ :=
            ih (d := d.setNext x keep)
              (fun r => ((Kept.setNext d x keep).eligible r cur).trans (hold r))
              (Linked.setNext hxs hxxs keep) hkeep (List.nodup_middle.mpr hnd)
              (by simpa using hlt')
          refine ⟨d', keep', .head hgo hrun, ?_, ?_, (Kept.setNext d x keep).trans hkept, hep,
            hbags, ?_⟩
          · simpa [he] using hk
          · simpa [he] using hd
          · intro r hr
            rw [hnext r fun hm => hr (List.mem_cons_of_mem x hm)]
            exact d.setNext_nextOf_of_ne (List.ne_of_not_mem_cons hr).symm keep

/-- The keep-list is pushed back onto the bag. -/
theorem runs_repush (cur b : ℕ) (hy : Linked d.nextOf keep ys) (hz : Linked d.nextOf (d.bags b) zs)
    (hnd : (ys ++ zs).Nodup) (hlt : ∀ r ∈ ys, r < d.recs.length) :
    ∃ d', Runs (d, { l with pc := repush cur b d keep }) (d', { l with pc := nextBag cur b }) ∧
      Linked d'.nextOf (d'.bags b) (ys.reverse ++ zs) ∧ d'.dropped = d.dropped ∧
      Kept d d' ∧ d'.epoch = d.epoch ∧ (∀ b', b' ≠ b → d'.bags b' = d.bags b') ∧
      ∀ r, r ∉ ys → d'.nextOf r = d.nextOf r := by
  induction ys generalizing d keep zs with
  | nil =>
      obtain rfl : keep = none := hy
      exact ⟨d, .refl, by simpa using hz, rfl, .refl d, rfl, fun _ _ => rfl, fun _ _ => rfl⟩
  | cons y ys ih =>
      obtain ⟨rfl, hys⟩ := linked_cons.mp hy
      obtain ⟨hyout, hnd'⟩ := List.nodup_cons.mp hnd
      obtain ⟨hyys, hyzs⟩ : y ∉ ys ∧ y ∉ zs := by simpa using hyout
      have hylt : y < d.recs.length := hlt y List.mem_cons_self
      -- one turn of the loop: set the link of `y`, then put `y` on top of the bag
      obtain ⟨d₁, hd₁⟩ : ∃ d₁, d₁ = (d.setNext y (d.bags b)).setBag b (some y) := ⟨_, rfl⟩
      have hnext₁ : ∀ r, d₁.nextOf r = (d.setNext y (d.bags b)).nextOf r := by
        intro r
        rw [hd₁]
        rfl
      have hpc : repush cur b (d.setNext y (d.bags b)) (d.nextOf y) =
          repush cur b d₁ (d.nextOf y) := by
        cases d.nextOf y with
        | none => rfl
        | some n => rw [repush, repush, hnext₁]
      have hload : Go (d, { l with pc := repush cur b d (some y) })
          (d.setNext y (d.bags b),
            { l with pc := .keepCas cur b y (d.nextOf y) (d.bags b) }) := by
        simp [Go, stepRun, repush]
      have hcas : Go (d.setNext y (d.bags b),
            { l with pc := .keepCas cur b y (d.nextOf y) (d.bags b) })
          (d₁, { l with pc := repush cur b d₁ (d.nextOf y) }) := by
        simp [Go, stepRun, hpc, hd₁]
      have hys₁ : Linked d₁.nextOf (d.nextOf y) ys := by
        refine (Linked.setNext hys hyys (d.bags b)).congr fun r _ => hnext₁ r
      have hzs₁ : Linked d₁.nextOf (d₁.bags b) (y :: zs) := by
        refine ⟨by rw [hd₁]; exact Function.update_self .., ?_⟩
        rw [hnext₁, d.setNext_nextOf_self hylt]
        exact (Linked.setNext hz hyzs (d.bags b)).congr fun r _ => hnext₁ r
      have hkept₁ : Kept d d₁ := by
        rw [hd₁]
        exact (Kept.setNext d y (d.bags b)).trans ((Kept.refl _).of_recs rfl rfl)
      -- the rest of the keep-list meets a bag that has grown by `y`
      obtain ⟨d', hrun, hl, hd, hkept, hep, hbags, hnext⟩ :=
        ih hys₁ hzs₁ (List.nodup_middle.mpr hnd)
          (by rw [hkept₁.length]; exact fun r hr => hlt r (List.mem_cons_of_mem y hr))
      refine ⟨d', .head hload (.head hcas hrun), by simpa using hl, ?_, hkept₁.trans hkept, ?_, ?_, ?_⟩
      · rw [hd, hd₁]
        rfl
      · rw [hep, hd₁]
        rfl
      · intro b' hb'
        rw [hbags b' hb', hd₁]
        exact Function.update_of_ne hb' _ _
      · intro r hr
        rw [hnext r fun hm => hr (List.mem_cons_of_mem y hm), hnext₁]
        exact d.setNext_nextOf_of_ne (List.ne_of_not_mem_cons hr).symm _

/-- The records that are not freed yet, bag by bag. -/
structure Bags (d : Domain G) (C : ℕ → List ℕ) : Prop where
  linked : ∀ b < nBags, Linked d.nextOf (d.bags b) (C b)
  nodup : ∀ b, (C b).Nodup
  disjoint : ∀ b < nBags, ∀ b' < nBags, ∀ r, r ∈ C b → r ∈ C b' → b = b'
  dropped_lt : ∀ r ∈ d.dropped, r < d.recs.length
  pending : ∀ r, (∃ b < nBags, r ∈ C b) ↔ r < d.recs.length ∧ r ∉ d.dropped

/-- Only the records, the bags and the log of the drop functions matter. -/
theorem Bags.congr {d' : Domain G} {C : ℕ → List ℕ} (hC : Bags d C) (hrecs : d'.recs = d.recs)
    (hbags : d'.bags = d.bags) (hdrop : d'.dropped = d.dropped) : Bags d' C := by
  have hnext : d'.nextOf = d.nextOf := by
    funext r
    rw [Domain.nextOf, hrecs, Domain.nextOf]
  refine ⟨?_, hC.nodup, hC.disjoint, ?_, ?_⟩
  · rw [hnext, hbags]
    exact hC.linked
  · rw [hrecs, hdrop]
    exact hC.dropped_lt
  · rw [hrecs, hdrop]
    exact hC.pending

theorem Bags.lt {C : ℕ → List ℕ} (hC : Bags d C) (hb : b < nBags) {r : ℕ} (hr : r ∈ C b) :
    r < d.recs.length := ((hC.pending r).mp ⟨b, hb, hr⟩).1

/-- The old records of bag `b` have been freed. -/
theorem Bags.free {d' : Domain G} {C : ℕ → List ℕ} (hC : Bags d C) (hb : b < nBags)
    (hlink : Linked d'.nextOf (d'.bags b) ((C b).filter fun r => !old r))
    (hnext : ∀ r, r ∉ C b → d'.nextOf r = d.nextOf r)
    (hbags : ∀ b', b' ≠ b → d'.bags b' = d.bags b') (hlen : d'.recs.length = d.recs.length)
    (hdrop : d'.dropped = d.dropped ++ (C b).filter old) :
    Bags d' (Function.update C b ((C b).filter fun r => !old r)) := by
  -- bag `b` keeps its young records, the others all of theirs
  have hmem : ∀ b' r, r ∈ Function.update C b ((C b).filter fun r => !old r) b' ↔
      r ∈ C b' ∧ (b' = b → old r = false) := by
    intro b' r
    by_cases he : b' = b
    · subst he
      simp
    · simp [he]
  refine ⟨?_, ?_, ?_, ?_, ?_⟩
  · intro b' hb'
    by_cases he : b' = b
    · subst he
      rw [Function.update_self]
      exact hlink
    · rw [Function.update_of_ne he, hbags b' he]
      exact (hC.linked b' hb').congr fun r hr => hnext r fun hm => he (hC.disjoint b' hb' b hb r hr hm)
  · intro b'
    by_cases he : b' = b
    · subst he
      rw [Function.update_self]
      exact (hC.nodup b').filter _
    · rw [Function.update_of_ne he]
      exact hC.nodup b'
  · intro b₁ hb₁ b₂ hb₂ r h₁ h₂
    exact hC.disjoint b₁ hb₁ b₂ hb₂ r ((hmem b₁ r).mp h₁).1 ((hmem b₂ r).mp h₂).1
  · intro r hr
    rw [hlen]
    rw [hdrop, List.mem_append, List.mem_filter] at hr
    exact hr.elim (hC.dropped_lt r) fun hm => hC.lt hb hm.1
  · intro r
    rw [hlen, hdrop, List.mem_append, List.mem_filter]
    constructor
    · rintro ⟨b', hb', hr⟩
      obtain ⟨hr, hyoung⟩ := (hmem b' r).mp hr
      obtain ⟨hrlt, hrd⟩ := (hC.pending r).mp ⟨b', hb', hr⟩
      refine ⟨hrlt, ?_⟩
      rintro (hd | ⟨hm, hold⟩)
      · exact hrd hd
      · -- it is in bag `b`, where only young records were kept
        rw [hyoung (hC.disjoint b' hb' b hb r hr hm)] at hold
        cases hold
    · rintro ⟨hrlt, hrd⟩
      obtain ⟨b', hb', hr⟩ := (hC.pending r).mpr ⟨hrlt, fun hd => hrd (.inl hd)⟩
      refine ⟨b', hb', (hmem b' r).mpr ⟨hr, ?_⟩⟩
      rintro rfl
      exact Bool.eq_false_iff.mpr fun hold => hrd (.inr ⟨hr, hold⟩)

/-- `reclaim_bag`. -/
theorem Bags.reclaim {C : ℕ → List ℕ} (hC : Bags d C) (hb : b < nBags)
    (hold : ∀ r, d.eligible r cur ↔ old r = true) :
    ∃ d', Runs (d, { l with pc := .bagSwap cur b }) (d', { l with pc := nextBag cur b }) ∧
      Bags d' (Function.update C b ((C b).filter fun r => !old r)) ∧
      d'.dropped = d.dropped ++ (C b).filter old ∧ Kept d d' ∧ d'.epoch = d.epoch := by
  have hswap : Go (d, { l with pc := .bagSwap cur b })
      (d.setBag b none, { l with pc := .bagWalk cur b (d.bags b) none }) := rfl
  obtain ⟨d₁, keep, hwalk, hkeep, hdrop, hkept, hep, hbags, hnext⟩ :=
    runs_walk (d := d.setBag b none) (l := l) (b := b) hold (hC.linked b hb)
      (show Linked _ none [] from rfl) (by simpa using hC.nodup b) fun _ hr => hC.lt hb hr
  have hend : Go (d₁, { l with pc := .bagWalk cur b none keep })
      (d₁, { l with pc := repush cur b d₁ keep }) := by
    simp [Go, stepRun]
  have hempty : Linked d₁.nextOf (d₁.bags b) [] := by
    rw [linked_nil, hbags]
    exact Function.update_self ..
  have hyoung : ∀ r, r ∈ ((C b).filter fun r => !old r).reverse ++ [] → r ∈ C b := by
    intro r hr
    exact (List.mem_filter.mp (List.mem_reverse.mp (List.append_nil _ ▸ hr))).1
  obtain ⟨d₂, hpush, hlink, hdrop₂, hkept₂, hep₂, hbags₂, hnext₂⟩ :=
    runs_repush (l := l) cur b hkeep hempty (by simpa using (hC.nodup b).filter _)
      fun r hr => hkept.length.symm ▸ hC.lt hb (hyoung r hr)
  have hkept₁ : Kept d d₁ := hkept.of_recs rfl rfl
  have hdropped : d₂.dropped = d.dropped ++ (C b).filter old := hdrop₂.trans hdrop
  refine ⟨d₂, .head hswap (hwalk.trans (.head hend hpush)), ?_, hdropped, hkept₁.trans hkept₂,
    hep₂.trans hep⟩
  refine hC.free hb (by simpa using hlink) ?_ ?_ (hkept₁.trans hkept₂).length hdropped
  · intro r hr
    rw [hnext₂ r fun hm => hr (hyoung r hm), hnext r hr]
    rfl
  · intro b' he
    rw [hbags₂ b' he, hbags]
    exact Function.update_of_ne he _ _

/-- A new record on top of bag `b`. -/
theorem Bags.push {d' : Domain G} {C : ℕ → List ℕ} (hC : Bags d C) (hb : b < nBags)
    (hlen : d'.recs.length = d.recs.length + 1)
    (hnext : ∀ r < d.recs.length, d'.nextOf r = d.nextOf r)
    (hnew : d'.nextOf d.recs.length = d.bags b)
    (hbags : d'.bags = Function.update d.bags b (some d.recs.length))
    (hdrop : d'.dropped = d.dropped) :
    Bags d' (Function.update C b (d.recs.length :: C b)) := by
  -- the old records keep their links, so every bag is the list it was
  have hold : ∀ b' < nBags, Linked d'.nextOf (d.bags b') (C b') := fun b' hb' =>
    (hC.linked b' hb').congr fun r hr => hnext r (hC.lt hb' hr)
  have hmem : ∀ b' r, r ∈ Function.update C b (d.recs.length :: C b) b' ↔
      r ∈ C b' ∨ (b' = b ∧ r = d.recs.length) := by
    intro b' r
    by_cases he : b' = b
    · subst he
      simp [or_comm]
    · simp [he]
  refine ⟨?_, ?_, ?_, ?_, ?_⟩
  · intro b' hb'
    rw [hbags]
    by_cases he : b' = b
    · subst he
      rw [Function.update_self, Function.update_self]
      exact ⟨rfl, hnew ▸ hold b' hb'⟩
    · rw [Function.update_of_ne he, Function.update_of_ne he]
      exact hold b' hb'
  · intro b'
    by_cases he : b' = b
    · subst he
      rw [Function.update_self]
      exact List.nodup_cons.mpr ⟨fun hm => lt_irrefl _ (hC.lt hb hm), hC.nodup b'⟩
    · rw [Function.update_of_ne he]
      exact hC.nodup b'
  · intro b₁ hb₁ b₂ hb₂ r h₁ h₂
    rcases (hmem b₁ r).mp h₁ with h₁ | ⟨e₁, hr₁⟩ <;> rcases (hmem b₂ r).mp h₂ with h₂ | ⟨e₂, hr₂⟩
    · exact hC.disjoint b₁ hb₁ b₂ hb₂ r h₁ h₂
    · exact absurd (hr₂ ▸ hC.lt hb₁ h₁) (lt_irrefl _)
    · exact absurd (hr₁ ▸ hC.lt hb₂ h₂) (lt_irrefl _)
    · exact e₁.trans e₂.symm
  · intro r hr
    rw [hlen]
    exact (hC.dropped_lt r (hdrop ▸ hr)).trans (Nat.lt_succ_self _)
  · intro r
    rw [hlen, hdrop]
    constructor
    · rintro ⟨b', hb', hr⟩
      rcases (hmem b' r).mp hr with hr | ⟨-, rfl⟩
      · obtain ⟨hrlt, hrd⟩ := (hC.pending r).mp ⟨b', hb', hr⟩
        exact ⟨hrlt.trans (Nat.lt_succ_self _), hrd⟩
      · exact ⟨Nat.lt_succ_self _, fun hd => lt_irrefl _ (hC.dropped_lt _ hd)⟩
    · rintro ⟨hrlt, hrd⟩
      rcases Nat.lt_succ_iff_lt_or_eq.mp hrlt with hrlt | rfl
      · obtain ⟨b', hb', hr⟩ := (hC.pending r).mpr ⟨hrlt, hrd⟩
        exact ⟨b', hb', (hmem b' r).mpr (.inl hr)⟩
      · exact ⟨b, hb, (hmem b _).mpr (.inr ⟨rfl, rfl⟩)⟩

/-- All three bags are gone through in turn. -/
theorem Bags.reclaim_all {C : ℕ → List ℕ} (hC : Bags d C) (cur : ℕ) :
    ∃ d' C', Runs (d, { l with pc := .bagSwap cur 0 }) (d', { l with pc := .idle }) ∧ Bags d' C' ∧
      (∀ r < d.recs.length, r ∈ d'.dropped ↔ r ∈ d.dropped ∨ d.eligible r cur) ∧
      Kept d d' ∧ d'.epoch = d.epoch := by
  obtain ⟨old, hold⟩ : ∃ old : ℕ → Bool, ∀ r, d.eligible r cur ↔ old r = true :=
    ⟨fun r => decide (d.eligible r cur), fun r => decide_eq_true_iff.symm⟩
  obtain ⟨d₀, hrun₀, hC₀, hdrop₀, hkept₀, hep₀⟩ := hC.reclaim (l := l) (b := 0) (by decide) hold
  have hold₀ := fun r => (hkept₀.eligible r cur).trans (hold r)
  obtain ⟨d₁, hrun₁, hC₁, hdrop₁, hkept₁, hep₁⟩ := hC₀.reclaim (l := l) (b := 1) (by decide) hold₀
  have hold₁ := fun r => (hkept₁.eligible r cur).trans (hold₀ r)
  obtain ⟨d₂, hrun₂, hC₂, hdrop₂, hkept₂, hep₂⟩ := hC₁.reclaim (l := l) (b := 2) (by decide) hold₁
  refine ⟨d₂, _, hrun₀.trans (hrun₁.trans hrun₂), hC₂, ?_, hkept₀.trans (hkept₁.trans hkept₂),
    hep₂.trans (hep₁.trans hep₀)⟩
  intro r hr
  have hmem : r ∈ d₂.dropped ↔
      r ∈ d.dropped ∨ ((r ∈ C 0 ∨ r ∈ C 1 ∨ r ∈ C 2) ∧ old r = true) := by
    rw [hdrop₂, hdrop₁, hdrop₀]
    have h₁ : Function.update C 0 ((C 0).filter fun r => !old r) 1 = C 1 := rfl
    have h₂ : Function.update (Function.update C 0 ((C 0).filter fun r => !old r)) 1
        ((C 1).filter fun r => !old r) 2 = C 2 := rfl
    rw [h₁, h₂]
    simp only [List.mem_append, List.mem_filter]
    tauto
  rw [hmem, hold]
  constructor
  · exact Or.imp_right And.right
  · rintro (hd | ho)
    · exact .inl hd
    · by_cases hd : r ∈ d.dropped
      · exact .inl hd
      · refine .inr ⟨?_, ho⟩
        obtain ⟨b, hb, hm⟩ := (hC.pending r).mpr ⟨hr, hd⟩
        have : nBags = 3 := rfl
        rcases (by omega : b = 0 ∨ b = 1 ∨ b = 2) with rfl | rfl | rfl
        · exact .inl hm
        · exact .inr (.inl hm)
        · exact .inr (.inr hm)

end Walk

/-! ## The three calls -/

/-- The domain between two calls of its only thread. -/
structure Alone (d : Domain G) (l : Local G) : Prop where
  idle : l.pc = .idle
  hwm : d.hwm = 0
  /-- The thread has claimed the first slot, or will do so. -/
  slot : l.slot = some 0 ∨ (l.slot = none ∧ d.slots 0 = free)
  bags : ∃ C, Bags d C
  tag_le : ∀ r < d.recs.length, d.tagOf r ≤ d.epoch
  dropped : ∀ r < d.recs.length, r ∈ d.dropped ↔ d.tagOf r < d.epoch ∧ d.eligible r d.epoch

theorem alone_new : Alone (.new G) (.new G) where
  idle := rfl
  hwm := rfl
  slot := .inr ⟨rfl, rfl⟩
  bags := by
    refine ⟨fun _ => [], fun _ _ => rfl, fun _ => List.nodup_nil, nofun, nofun, fun r => ?_⟩
    simp [Domain.new]
  tag_le := nofun
  dropped := nofun

section Calls

variable {d : Domain G} {l : Local G}

/-- The scan of `try_collect` goes through when no participant is pinned at another epoch. -/
theorem runs_scan {g hwm i : ℕ} (hi : i ≤ hwm) (hslots : ∀ j ≤ hwm, Domain.blocks (d.slots j) g = false) :
    Runs (d, { l with pc := .colScan g hwm i }) (d, { l with pc := .colCas g }) := by
  -- on the number of slots that are left
  obtain ⟨k, hk⟩ := Nat.exists_eq_add_of_le hi
  induction k generalizing i with
  | zero =>
      obtain rfl : hwm = i := hk
      refine .single ?_
      simp [Go, stepRun, hslots hwm (le_refl hwm), afterScan]
  | succ k ih =>
      refine .head ?_ (ih (i := i + 1) (by omega) (by omega))
      simp [Go, stepRun, hslots i hi, afterScan, show i < hwm by omega]

/-- `try_collect` while no participant is pinned at another epoch: the epoch advances, and what it makes
eligible is freed. -/
theorem runs_collect {C : ℕ → List ℕ} (hC : Bags d C)
    (hslots : ∀ i ≤ min d.hwm (nSlots - 1), Domain.blocks (d.slots i) d.epoch = false) :
    ∃ d' C', Runs (d, { l with pc := .colEpoch }) (d', { l with pc := .idle }) ∧ Bags d' C' ∧
      (∀ r < d.recs.length, r ∈ d'.dropped ↔ r ∈ d.dropped ∨ d.eligible r (d.epoch + 1)) ∧
      Kept d d' ∧ d'.epoch = d.epoch + 1 := by
  have hepoch : Go (d, { l with pc := .colEpoch }) (d, { l with pc := .colHwm d.epoch }) := rfl
  have hload : Go (d, { l with pc := .colHwm d.epoch })
      (d, { l with pc := .colScan d.epoch (min d.hwm (nSlots - 1)) 0 }) := rfl
  have hscan : Runs (d, { l with pc := .colScan d.epoch (min d.hwm (nSlots - 1)) 0 })
      (d, { l with pc := .colCas d.epoch }) := runs_scan (Nat.zero_le _) hslots
  have hadvance : Go (d, { l with pc := .colCas d.epoch })
      ({ d with epoch := d.epoch + 1 }, { l with pc := .colCur }) := by
    simp [Go, stepRun]
  have hcur : Go ({ d with epoch := d.epoch + 1 }, { l with pc := .colCur })
      ({ d with epoch := d.epoch + 1 }, { l with pc := .bagSwap (d.epoch + 1) 0 }) := rfl
  have hC' : Bags { d with epoch := d.epoch + 1 } C := hC.congr rfl rfl rfl
  obtain ⟨d', C', hrun, hbags, hdrop, hkept, hep⟩ :=
    hC'.reclaim_all (l := l) (d.epoch + 1)
  exact ⟨d', C', .head hepoch (.head hload (hscan.trans (.head hadvance (.head hcur hrun)))), hbags,
    hdrop, hkept.of_recs rfl rfl, hep⟩

/-- Only the records, the bags and the epoch matter. -/
theorem Alone.congr (h : Alone d l) {d' : Domain G} {l' : Local G} (hrecs : d'.recs = d.recs)
    (hbags : d'.bags = d.bags) (hdrop : d'.dropped = d.dropped) (hep : d'.epoch = d.epoch)
    (hwm : d'.hwm = 0) (hidle : l'.pc = .idle) (hslot : l'.slot = some 0) : Alone d' l' := by
  have htag : d'.tagOf = d.tagOf := by
    funext r
    simp only [Domain.tagOf, hrecs]
  obtain ⟨C, hC⟩ := h.bags
  refine ⟨hidle, hwm, .inl hslot, ⟨C, hC.congr hrecs hbags hdrop⟩, ?_, ?_⟩
  · rw [hrecs, htag, hep]
    exact h.tag_le
  · intro r hr
    rw [hdrop, htag, hep, Domain.eligible, htag]
    exact h.dropped r (hrecs ▸ hr)

/-- `pin` runs to its end and touches nothing but the slot. -/
theorem Alone.pin (h : Alone d l) :
    ∃ d' l', (∃ n, ∀ fuel ≥ n, call fuel d l .pin = some (d', l')) ∧ Alone d' l' ∧
      d'.recs = d.recs ∧ d'.epoch = d.epoch ∧ l'.tick = l.tick ∧ l'.guards = l.guards + 1 ∧
      l'.slot = some 0 := by
  rcases h.slot with hslot | ⟨hslot, hfree⟩
  · have hstep : step d l .pin = some (d, { l with pc := .pinLoad 0 }) := by
      simp [step, h.idle, hslot, localSlot]
    have hload : Go (d, { l with pc := .pinLoad 0 }) (d, { l with pc := .pinStore 0 d.epoch }) := rfl
    have hstore : Go (d, { l with pc := .pinStore 0 d.epoch })
        (d.setSlot 0 d.epoch, { l with guards := l.guards + 1, pc := .idle }) := rfl
    refine ⟨d.setSlot 0 d.epoch, { l with guards := l.guards + 1, pc := .idle },
      call_of_runs hstep (.head hload (.single hstore)) rfl, ?_, rfl, rfl, rfl, rfl, hslot⟩
    exact h.congr rfl rfl rfl rfl h.hwm rfl hslot
  · -- the first pin of the thread claims the first slot
    have hstep : step d l .pin = some (d, { l with pc := .probe 0 }) := by
      simp [step, h.idle, hslot, localSlot]
    have hprobe : Go (d, { l with pc := .probe 0 }) (d, { l with pc := .claim 0 }) := by
      simp [Go, stepRun, nSlots, hfree]
    have hclaim : Go (d, { l with pc := .claim 0 })
        (d.setSlot 0 unpinned, { l with slot := some 0, pc := .raiseHwm 0 }) := by
      simp [Go, stepRun, hfree]
    have hraise : Go (d.setSlot 0 unpinned, { l with slot := some 0, pc := .raiseHwm 0 })
        ({ d.setSlot 0 unpinned with hwm := max d.hwm 0 },
          { l with slot := some 0, pc := .pinLoad 0 }) := rfl
    have hload : Go ({ d.setSlot 0 unpinned with hwm := max d.hwm 0 },
          { l with slot := some 0, pc := .pinLoad 0 })
        ({ d.setSlot 0 unpinned with hwm := max d.hwm 0 },
          { l with slot := some 0, pc := .pinStore 0 d.epoch }) := rfl
    have hstore : Go ({ d.setSlot 0 unpinned with hwm := max d.hwm 0 },
          { l with slot := some 0, pc := .pinStore 0 d.epoch })
        (({ d.setSlot 0 unpinned with hwm := max d.hwm 0 } : Domain G).setSlot 0 d.epoch,
          { l with slot := some 0, guards := l.guards + 1, pc := .idle }) := rfl
    have hrun := Relation.ReflTransGen.head hprobe
      (.head hclaim (.head hraise (.head hload (.single hstore))))
    refine ⟨({ d.setSlot 0 unpinned with hwm := max d.hwm 0 } : Domain G).setSlot 0 d.epoch,
      { l with slot := some 0, guards := l.guards + 1, pc := .idle },
      call_of_runs hstep hrun rfl, ?_, rfl, rfl, rfl, rfl, rfl⟩
    exact h.congr rfl rfl rfl rfl (by simp [h.hwm, Domain.setSlot]) rfl rfl

/-- What a `retire` has done to the domain: there is one more record, on top of the bag of the epoch. -/
structure Retires (d : Domain G) (g : G) (d' : Domain G) : Prop where
  hwm : d'.hwm = d.hwm
  epoch : d'.epoch = d.epoch
  dropped : d'.dropped = d.dropped
  bags : d'.bags = Function.update d.bags (d.epoch % nBags) (some d.recs.length)
  length : d'.recs.length = d.recs.length + 1
  old : ∀ r < d.recs.length, d'.recs[r]? = d.recs[r]?
  new : d'.recs[d.recs.length]? =
    some { garbage := g, epoch := d.epoch, next := d.bags (d.epoch % nBags) }

/-- The record is allocated, its `next` pointer written, and the bag swung to it. -/
theorem call_retire (hidle : l.pc = .idle) (g : G) :
    ∃ d', (∃ n, ∀ fuel ≥ n, call fuel d l (.retire g) = some (d', l)) ∧ Retires d g d' := by
  obtain ⟨b, hb⟩ : ∃ b, b = d.epoch % nBags := ⟨_, rfl⟩
  obtain ⟨n, hn⟩ : ∃ n, n = d.recs.length := ⟨_, rfl⟩
  obtain ⟨d₁, hd₁⟩ : ∃ d₁ : Domain G,
      d₁ = { d with recs := d.recs ++ [{ garbage := g, epoch := d.epoch, next := none }] } := ⟨_, rfl⟩
  have hstep : step d l (.retire g) = some (d, { l with pc := .retireLoad g }) := by
    simp [step, hidle]
  have hload : Go (d, { l with pc := .retireLoad g }) (d₁, { l with pc := .retireHead n b }) := by
    rw [hd₁, hn, hb]
    rfl
  have hhead : Go (d₁, { l with pc := .retireHead n b })
      (d₁.setNext n (d₁.bags b), { l with pc := .retireCas n b (d₁.bags b) }) := rfl
  have hcas : Go (d₁.setNext n (d₁.bags b), { l with pc := .retireCas n b (d₁.bags b) })
      ((d₁.setNext n (d₁.bags b)).setBag b (some n), l) := by
    simp [Go, stepRun, Local.at_idle hidle]
  refine ⟨_, call_of_runs hstep (.head hload (.head hhead (.single hcas))) hidle, ?_⟩
  subst hd₁ hn hb
  refine ⟨rfl, rfl, rfl, rfl, ?_, ?_, ?_⟩
  · simp [Domain.setBag]
  · intro r hr
    simp [Domain.setBag, Domain.setNext, hr.ne', List.getElem?_append_left hr]
  · simp [Domain.setBag, Domain.setNext]

section Retires

variable {g : G} {d' : Domain G}

theorem Retires.garbageOf_old (h : Retires d g d') {r : ℕ} (hr : r < d.recs.length) :
    d'.garbageOf r = d.garbageOf r := by
  rw [Domain.garbageOf, h.old r hr, Domain.garbageOf]

theorem Retires.tagOf_old (h : Retires d g d') {r : ℕ} (hr : r < d.recs.length) :
    d'.tagOf r = d.tagOf r := by
  rw [Domain.tagOf, h.old r hr, Domain.tagOf]

theorem Retires.garbageOf_new (h : Retires d g d') : d'.garbageOf d.recs.length = some g := by
  rw [Domain.garbageOf, h.new]
  rfl

theorem Retires.tagOf_new (h : Retires d g d') : d'.tagOf d.recs.length = d.epoch := by
  rw [Domain.tagOf, h.new]
  rfl

theorem Retires.exists_bags (h : Retires d g d') {C : ℕ → List ℕ} (hC : Bags d C) :
    ∃ C', Bags d' C' := by
  refine ⟨_, hC.push (b := d.epoch % nBags) (Nat.mod_lt _ (by decide)) h.length ?_ ?_ h.bags h.dropped⟩
  · intro r hr
    rw [Domain.nextOf, h.old r hr, Domain.nextOf]
  · rw [Domain.nextOf, h.new]
    rfl

/-- The new record is young, and the old ones are as they were. -/
theorem Retires.alone (h : Retires d g d') (ha : Alone d l) (hslot : l.slot = some 0) : Alone d' l := by
  obtain ⟨C, hC⟩ := ha.bags
  refine ⟨ha.idle, h.hwm.trans ha.hwm, .inl hslot, h.exists_bags hC, ?_, ?_⟩
  · intro r hr
    rw [h.epoch]
    rcases Nat.lt_succ_iff_lt_or_eq.mp (h.length ▸ hr) with hr | rfl
    · exact (h.tagOf_old hr).le.trans (ha.tag_le r hr)
    · exact h.tagOf_new.le
  · intro r hr
    rw [h.dropped, h.epoch, Domain.eligible]
    rcases Nat.lt_succ_iff_lt_or_eq.mp (h.length ▸ hr) with hr | rfl
    · rw [h.tagOf_old hr]
      exact ha.dropped r hr
    · rw [h.tagOf_new]
      exact iff_of_false (fun hd => lt_irrefl _ (hC.dropped_lt _ hd)) fun hd => lt_irrefl _ hd.1

end Retires

/-- `retire` runs to its end and leaves a record with the tag of the epoch. -/
theorem Alone.retire (h : Alone d l) (hslot : l.slot = some 0) (g : G) :
    ∃ d', (∃ n, ∀ fuel ≥ n, call fuel d l (.retire g) = some (d', l)) ∧ Alone d' l ∧
      d'.recs.length = d.recs.length + 1 ∧ d'.epoch = d.epoch ∧
      (∀ r < d.recs.length, d'.garbageOf r = d.garbageOf r ∧ d'.tagOf r = d.tagOf r) ∧
      d'.garbageOf d.recs.length = some g ∧ d'.tagOf d.recs.length = d.epoch := by
  obtain ⟨d', hcall, hret⟩ := call_retire (d := d) h.idle g
  exact ⟨d', hcall, hret.alone h hslot, hret.length, hret.epoch,
    fun r hr => ⟨hret.garbageOf_old hr, hret.tagOf_old hr⟩, hret.garbageOf_new, hret.tagOf_new⟩

/-- `Guard::drop` runs to its end; every 128th time it advances the epoch. -/
theorem Alone.unpin (h : Alone d l) (hslot : l.slot = some 0) (hg : 0 < l.guards) :
    ∃ d' l', (∃ n, ∀ fuel ≥ n, call fuel d l .unpin = some (d', l')) ∧ Alone d' l' ∧ Kept d d' ∧
      d'.epoch = d.epoch + (if (l.tick + 1) % 2 ^ 32 % collectInterval = 0 then 1 else 0) ∧
      l'.tick = (l.tick + 1) % 2 ^ 32 ∧ l'.guards = l.guards - 1 ∧ l'.slot = some 0 := by
  have hstep : step d l .unpin = some (stepUnpin d l 0) := by
    simp [step, h.idle, hslot, hg]
  by_cases ht : (l.tick + 1) % 2 ^ 32 % collectInterval = 0
  · obtain ⟨C, hC⟩ := h.bags
    have hC₀ : Bags (d.setSlot 0 unpinned) C := hC.congr rfl rfl rfl
    -- the claimed prefix is the one slot that was just unpinned
    have hslots : ∀ i ≤ min (d.setSlot 0 unpinned).hwm (nSlots - 1),
        Domain.blocks ((d.setSlot 0 unpinned).slots i) (d.setSlot 0 unpinned).epoch = false := by
      intro i hi
      obtain rfl : i = 0 := by
        have : d.hwm = 0 := h.hwm
        simp only [Domain.setSlot, this] at hi
        omega
      simp [Domain.setSlot, Domain.blocks]
    obtain ⟨d', C', hrun, hC', hdrop, hkept, hep⟩ :=
      runs_collect (l := { l with tick := (l.tick + 1) % 2 ^ 32, guards := l.guards - 1 }) hC₀ hslots
    have hep : d'.epoch = d.epoch + 1 := hep
    have htag : ∀ r, d'.tagOf r = d.tagOf r := hkept.tag
    refine ⟨d', _, call_of_runs (hstep.trans ?_) hrun rfl, ?_,
      hkept.of_recs rfl rfl, by rw [if_pos ht, hep], rfl, rfl, hslot⟩
    · simp only [stepUnpin, if_pos ht]
    · refine ⟨rfl, hkept.hwm.trans h.hwm, .inl hslot, ⟨C', hC'⟩, ?_, ?_⟩
      · intro r hr
        rw [htag, hep]
        exact (h.tag_le r (hkept.length ▸ hr)).trans (Nat.le_succ _)
      · intro r hr
        have hr : r < d.recs.length := hkept.length ▸ hr
        have hdrop : r ∈ d'.dropped ↔ r ∈ d.dropped ∨ d.eligible r (d.epoch + 1) := hdrop r hr
        have htag_le := h.tag_le r hr
        rw [hdrop, h.dropped r hr, hep]
        simp only [Domain.eligible, htag]
        omega
  · refine ⟨d.setSlot 0 unpinned,
      { l with tick := (l.tick + 1) % 2 ^ 32, guards := l.guards - 1, pc := .idle },
      call_of_runs (hstep.trans ?_) .refl rfl, ?_, (Kept.refl _).of_recs rfl rfl,
      by rw [if_neg ht]; rfl, rfl, rfl, hslot⟩
    · simp only [stepUnpin, if_neg ht]
    · exact h.congr rfl rfl rfl rfl h.hwm rfl hslot

end Calls

end ZeroKv.Ebr
