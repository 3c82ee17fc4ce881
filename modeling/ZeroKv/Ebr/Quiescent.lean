/-
# ZeroKv.Ebr.Quiescent — collecting when nobody is pinned.

In a state in which every slot is free or unpinned and no thread is in `retire` or `try_collect`, all
records that were not freed are on the three bags.  A collection then always advances the epoch, and frees
what is two epochs old: one call frees everything but the records of the last epoch, and a second call
frees those too.

The state is any reachable one, with any history behind it; the two collections are run by one thread while
the others stand still, some of them perhaps in the middle of `pin`.
-/
import ZeroKv.Ebr.Custody

namespace ZeroKv.Ebr

variable {G τ : Type}

/-! ## The bags of a quiet state -/

/-- The program points of `retire` and `try_collect`. -/
def Pc.reclaims : Pc G → Bool
  | .retireLoad _ | .retireHead _ _ | .retireCas _ _ _ | .colEpoch | .colHwm _ | .colScan _ _ _
  | .colCas _ | .colCur | .bagSwap _ _ | .bagWalk _ _ _ _ | .keepHead _ _ _ _
  | .keepCas _ _ _ _ _ => true
  | _ => false

/-- A record that is on one of the bags. -/
def Domain.InBag (d : Domain G) (r : ℕ) : Prop :=
  ∃ b < nBags, ∃ xs, Linked d.nextOf (d.bags b) xs ∧ r ∈ xs

theorem Owns.nothing {next : ℕ → Option ℕ} {p c : List ℕ} {pc : Pc G} (h : Owns next p c pc)
    (hpc : pc.reclaims = false) : p = [] ∧ c = [] := by
  cases pc with
  | retireHead | retireCas | bagWalk | keepHead | keepCas => cases hpc
  | _ => exact h

theorem Bags.inBag_iff {d : Domain G} {C : ℕ → List ℕ} (hC : Bags d C) (r : ℕ) :
    d.InBag r ↔ r < d.recs.length ∧ r ∉ d.dropped := by
  rw [← hC.pending]
  constructor
  · rintro ⟨b, hb, xs, hxs, hr⟩
    exact ⟨b, hb, hxs.unique (hC.linked b hb) ▸ hr⟩
  · rintro ⟨b, hb, hr⟩
    exact ⟨b, hb, C b, hC.linked b hb, hr⟩

/-- When nobody holds a record, the bags hold all that were not freed. -/
theorem Custody.bags {s : Config τ (Domain G) (Local G)} {lists : Place τ → List ℕ}
    (h : Custody s lists) (hrange : InRange s.mem) (hquiet : ∀ t, (s.loc t).pc.reclaims = false) :
    Bags s.mem fun b => lists (.bag b) := by
  refine ⟨fun b _ => h.bag b, fun b => h.split.nodup _, ?_, ?_, ?_⟩
  · intro b _ b' _ r hr hr'
    simpa using h.split.unique hr hr'
  · intro r hr
    rw [← h.freed] at hr
    exact h.split.lt hr
  · intro r
    rw [← h.freed]
    constructor
    · rintro ⟨b, -, hr⟩
      exact ⟨h.split.lt hr, h.split.notMem hr (by simp)⟩
    · rintro ⟨hlt, hopen⟩
      obtain ⟨P, hP⟩ := (h.split.cover r).mp hlt
      cases P with
      | bag b =>
          refine ⟨b, ?_, hP⟩
          by_contra hb
          rw [h.far hrange (Nat.not_lt.mp hb)] at hP
          cases hP
      | freed => exact absurd hP hopen
      | pushing t =>
          rw [((h.thread t).nothing (hquiet t)).1] at hP
          cases hP
      | collecting t =>
          rw [((h.thread t).nothing (hquiet t)).2] at hP
          cases hP

section Collected

variable {d d' : Domain G} {C C' : ℕ → List ℕ} {cur : ℕ}

/-- A collection keeps the young records on the bags. -/
theorem Bags.inBag_collected (hC : Bags d C) (hC' : Bags d' C') (hkept : Kept d d')
    (hdropped : ∀ r < d.recs.length, r ∈ d'.dropped ↔ r ∈ d.dropped ∨ d.eligible r cur) (r : ℕ) :
    d'.InBag r ↔ d.InBag r ∧ ¬ d.eligible r cur := by
  rw [hC'.inBag_iff, hC.inBag_iff, hkept.length]
  constructor
  · rintro ⟨hlt, hopen⟩
    have hboth := mt (hdropped r hlt).mpr hopen
    exact ⟨⟨hlt, fun h => hboth (.inl h)⟩, fun h => hboth (.inr h)⟩
  · rintro ⟨⟨hlt, hopen⟩, hyoung⟩
    exact ⟨hlt, fun h => ((hdropped r hlt).mp h).elim hopen hyoung⟩

/-- What it appends to the log are the old ones. -/
theorem Bags.mem_freed (hC : Bags d C) (hC' : Bags d' C') (hkept : Kept d d')
    (hdropped : ∀ r < d.recs.length, r ∈ d'.dropped ↔ r ∈ d.dropped ∨ d.eligible r cur)
    {freed : List ℕ} (hfreed : d.dropped ++ freed = d'.dropped) (hnd : d'.dropped.Nodup) (r : ℕ) :
    r ∈ freed ↔ d.InBag r ∧ d.eligible r cur := by
  rw [hC.inBag_iff]
  constructor
  · intro hr
    have hnew : r ∉ d.dropped := fun hold => (List.nodup_append.mp (hfreed ▸ hnd)).2.2 r hold r hr rfl
    have hin : r ∈ d'.dropped := hfreed ▸ List.mem_append_right _ hr
    have hlt : r < d.recs.length := hkept.length ▸ hC'.dropped_lt r hin
    exact ⟨⟨hlt, hnew⟩, ((hdropped r hlt).mp hin).resolve_left hnew⟩
  · rintro ⟨⟨hlt, hnew⟩, hold⟩
    have hin := (hdropped r hlt).mpr (.inr hold)
    rw [← hfreed] at hin
    exact (List.mem_append.mp hin).resolve_left hnew

end Collected

/-! ## One thread runs while the others stand still -/

theorem stepTo_of_go {x y : Domain G × Local G} (h : Go x y) :
    StepTo x.1 x.2 (.run true) y.1 y.2 := stepTo_of_run h

/-- A drop function that has run stays in the log. -/
theorem isPrefix_dropped_of_stepTo {d d' : Domain G} {l l' : Local G} {a : Action G}
    (hst : StepTo d l a d' l') : d.dropped <+: d'.dropped := by
  cases hst with
  | walkFree _ _ => exact List.prefix_append _ _
  | _ => exact List.prefix_rfl

theorem isPrefix_dropped_of_runs {x y : Domain G × Local G} (h : Runs x y) :
    x.1.dropped <+: y.1.dropped := by
  induction h with
  | refl => exact List.prefix_rfl
  | tail _ hgo ih => exact ih.trans (isPrefix_dropped_of_stepTo (stepTo_of_go hgo))

theorem reclaims_repush (cur b : ℕ) (d : Domain G) (keep : Option ℕ) :
    (repush cur b d keep).reclaims = true ∨ repush cur b d keep = .idle := by
  cases keep with
  | some n => exact .inl rfl
  | none =>
      by_cases hb : b + 1 < nBags
      · rw [repush, nextBag, if_pos hb]
        exact .inl rfl
      · rw [repush, nextBag, if_neg hb]
        exact .inr rfl

/-- A collection, and a `retire`, do not touch the slots and run to their end. -/
theorem step_reclaims {d d' : Domain G} {l l' : Local G} {a : Action G} (hst : StepTo d l a d' l')
    (hpc : l.pc.reclaims = true) :
    d'.slots = d.slots ∧ (l'.pc.reclaims = true ∨ l'.pc = .idle) := by
  cases hst with
  | retire h | collect h | raiseHwm h | pinLoad h | pinStore h | pinAgain h _ | pinFirst h _
  | probeNone h _ | claim h _ | claimLost h _ | probeFree h _ _ | probeTaken h _ _ | unpin h _ _ _ =>
      rw [h] at hpc
      cases hpc
  | walkEnd _ => exact ⟨rfl, reclaims_repush _ _ _ _⟩
  | keepCas _ _ => exact ⟨rfl, reclaims_repush _ _ _ _⟩
  | retireCas _ _ => exact ⟨rfl, .inr rfl⟩
  | _ => exact ⟨rfl, .inl rfl⟩

theorem slots_of_runs {x y : Domain G × Local G} (h : Runs x y) (hpc : x.2.pc.reclaims = true) :
    y.1.slots = x.1.slots ∧ (y.2.pc.reclaims = true ∨ y.2.pc = .idle) := by
  induction h with
  | refl => exact ⟨rfl, .inl hpc⟩
  | @tail y z _ hgo ih =>
      obtain ⟨hslots, hy | hy⟩ := ih
      · obtain ⟨hsame, hz⟩ := step_reclaims (stepTo_of_go hgo) hy
        exact ⟨hsame.trans hslots, hz⟩
      · -- an idle thread does not go on by itself
        have hgo : stepRun y.1 y.2 true = some z := hgo
        rw [stepRun, hy] at hgo
        cases hgo

section Runs

variable [DecidableEq τ] {s : Config τ (Domain G) (Local G)} {u : τ}

/-- A run of one thread is a run of the domain. -/
theorem reachable_of_runs {loc : τ → Local G} {x y : Domain G × Local G}
    (hs : ((threads G).machine τ).Reachable ⟨x.1, Function.update loc u x.2⟩) (h : Runs x y) :
    ((threads G).machine τ).Reachable ⟨y.1, Function.update loc u y.2⟩ := by
  induction h with
  | refl => exact hs
  | @tail y z _ hgo ih =>
      refine ih.next (l := (u, .run true)) (Threads.stepOf_eq_some.mpr ⟨z.1, z.2, ?_, by simp⟩)
      show step y.1 (Function.update loc u y.2 u) (.run true) = some z
      rw [Function.update_self]
      exact hgo

/-! ## Two collections -/

/-- A state in which nobody is pinned and nobody retires or collects. -/
structure Quiescent (s : Config τ (Domain G) (Local G)) : Prop where
  slots : ∀ i < nSlots, s.mem.slots i = free ∨ s.mem.slots i = unpinned
  threads : ∀ t, (s.loc t).pc.reclaims = false

omit [DecidableEq τ] in
theorem Quiescent.not_blocks (h : Quiescent s) {i : ℕ} (hi : i ≤ min s.mem.hwm (nSlots - 1)) (g : ℕ) :
    Domain.blocks (s.mem.slots i) g = false := by
  have hlt : i < nSlots := by
    have : nSlots = 4096 := rfl
    omega
  rcases h.slots i hlt with h | h <;> simp [Domain.blocks, h]

/-- With the counter far from its end the test of `reclaim_bag` does not saturate. -/
theorem eligible_iff {d : Domain G} {r cur : ℕ} (hcur : cur < 2 ^ 64 - 1) :
    d.eligible r cur ↔ d.tagOf r + 2 ≤ cur := by
  unfold Domain.eligible
  omega

/-- One `try_collect` by a thread that is not in a call frees what is two epochs old after the advance,
each record once, and keeps the others. -/
theorem collect_once (hs : ((threads G).machine τ).Reachable s) (hq : Quiescent s)
    (hidle : (s.loc u).pc = .idle) (hep : s.mem.epoch + 1 < 2 ^ 64 - 1) :
    ∃ d' freed, (∃ n, ∀ fuel ≥ n, call fuel s.mem (s.loc u) .collect = some (d', s.loc u)) ∧
      ((threads G).machine τ).Reachable ⟨d', s.loc⟩ ∧ Quiescent (⟨d', s.loc⟩ : Config τ _ _) ∧
      d'.epoch = s.mem.epoch + 1 ∧ (∀ r, d'.tagOf r = s.mem.tagOf r) ∧
      d'.dropped = s.mem.dropped ++ freed ∧ freed.Nodup ∧
      (∀ r, r ∈ freed ↔ s.mem.InBag r ∧ s.mem.tagOf r + 2 ≤ s.mem.epoch + 1) ∧
      ∀ r, d'.InBag r ↔ s.mem.InBag r ∧ ¬ s.mem.tagOf r + 2 ≤ s.mem.epoch + 1 := by
  have hrange : InRange s.mem := ((ranges G).holds hs).shared
  obtain ⟨lists, hcust⟩ := custody hs
  have hC := hcust.bags hrange hq.threads
  obtain ⟨d', C', hrun, hC', hdropped, hkept, hepoch⟩ :=
    runs_collect (l := s.loc u) hC fun i hi => hq.not_blocks hi _
  rw [Local.at_idle hidle] at hrun
  have hstep : step s.mem (s.loc u) .collect = some (s.mem, { s.loc u with pc := .colEpoch }) := by
    simp [step, hidle]
  -- the collection as a run of the whole domain
  have hstart : ((threads G).machine τ).Reachable
      ⟨s.mem, Function.update s.loc u { s.loc u with pc := .colEpoch }⟩ :=
    hs.next (l := (u, .collect)) (Threads.stepOf_eq_some.mpr ⟨_, _, hstep, rfl⟩)
  have hreach : ((threads G).machine τ).Reachable ⟨d', s.loc⟩ := by
    have := reachable_of_runs hstart hrun
    rwa [Function.update_eq_self] at this
  obtain ⟨freed, hfreed⟩ := isPrefix_dropped_of_runs hrun
  have hslots := (slots_of_runs hrun rfl).1
  obtain ⟨lists', hcust'⟩ := custody hreach
  have hnd : d'.dropped.Nodup := hcust'.freed ▸ hcust'.split.nodup .freed
  refine ⟨d', freed, call_of_runs hstep hrun hidle, hreach, ⟨?_, hq.threads⟩, hepoch, hkept.tag,
    hfreed.symm, (List.nodup_append.mp (hfreed ▸ hnd)).2.1, ?_, ?_⟩
  · intro i hi
    show d'.slots i = free ∨ d'.slots i = unpinned
    rw [hslots]
    exact hq.slots i hi
  · intro r
    rw [hC.mem_freed hC' hkept hdropped hfreed hnd, eligible_iff hep]
  · intro r
    rw [hC.inBag_collected hC' hkept hdropped, eligible_iff hep]

/-- Bags that hold no record are empty. -/
theorem bag_eq_none (hs : ((threads G).machine τ).Reachable s) (hnone : ∀ r, ¬ s.mem.InBag r)
    (b : ℕ) : s.mem.bags b = none := by
  rcases Nat.lt_or_ge b nBags with hb | hb
  · obtain ⟨lists, hcust⟩ := custody hs
    have hlinked := hcust.bag b
    cases hl : lists (.bag b) with
    | nil => exact linked_nil.mp (hl ▸ hlinked)
    | cons r rest => exact absurd ⟨b, hb, _, hlinked, hl ▸ List.mem_cons_self⟩ (hnone r)
  · exact ((ranges G).holds hs).shared.bags b hb

/-- Quiescent collection is complete.  From a quiescent state one `try_collect` frees exactly the records
with tag + 2 ≤ the epoch after its advance, each once, and keeps the others on the bags; two of them free
every record of the bags once and leave the bags empty. -/
theorem collect_quiescent (hs : ((threads G).machine τ).Reachable s) (hq : Quiescent s)
    (hidle : (s.loc u).pc = .idle) (hep : s.mem.epoch < 2 ^ 62 - 2) :
    ∃ d₁ d₂ n, (∀ fuel ≥ n, call fuel s.mem (s.loc u) .collect = some (d₁, s.loc u)) ∧
      (∀ fuel ≥ n, call fuel d₁ (s.loc u) .collect = some (d₂, s.loc u)) ∧
      d₁.epoch = s.mem.epoch + 1 ∧
      (∃ freed, d₁.dropped = s.mem.dropped ++ freed ∧ freed.Nodup ∧
        ∀ r, r ∈ freed ↔ s.mem.InBag r ∧ s.mem.tagOf r + 2 ≤ d₁.epoch) ∧
      (∀ r, d₁.InBag r ↔ s.mem.InBag r ∧ ¬ s.mem.tagOf r + 2 ≤ d₁.epoch) ∧
      (∃ freed, d₂.dropped = s.mem.dropped ++ freed ∧ freed.Nodup ∧
        ∀ r, r ∈ freed ↔ s.mem.InBag r) ∧
      ∀ b, d₂.bags b = none := by
  obtain ⟨d₁, freed₁, ⟨n₁, hcall₁⟩, hs₁, hq₁, hep₁, htag₁, hdrop₁, hnd₁, hfreed₁, hbag₁⟩ :=
    collect_once hs hq hidle (by omega)
  obtain ⟨d₂, freed₂, ⟨n₂, hcall₂⟩, hs₂, hq₂, hep₂, htag₂, hdrop₂, hnd₂, hfreed₂, hbag₂⟩ :=
    collect_once (u := u) hs₁ hq₁ hidle (by simp only [hep₁]; omega)
  have htags := ((ranges G).holds hs).shared.tags
  -- no record is tagged above the first epoch, so the second advance makes all of them old
  have hold : ∀ r, s.mem.InBag r → s.mem.tagOf r + 2 ≤ s.mem.epoch + 2 := by
    intro r hr
    obtain ⟨lists, hcust⟩ := custody hs
    have := ((hcust.bags ((ranges G).holds hs).shared hq.threads).inBag_iff r).mp hr
    exact Nat.add_le_add_right (htags r this.1) 2
  have hsecond : ∀ r, r ∈ freed₂ ↔ s.mem.InBag r ∧ ¬ s.mem.tagOf r + 2 ≤ s.mem.epoch + 1 := by
    intro r
    rw [hfreed₂ r]
    simp only [htag₁, hep₁, hbag₁]
    exact ⟨fun h => h.1, fun h => ⟨h, hold r h.1⟩⟩
  refine ⟨d₁, d₂, max n₁ n₂, fun fuel hf => hcall₁ fuel (le_trans (le_max_left _ _) hf),
    fun fuel hf => hcall₂ fuel (le_trans (le_max_right _ _) hf), hep₁, ⟨freed₁, hdrop₁, hnd₁, ?_⟩,
    ?_, ⟨freed₁ ++ freed₂, ?_, ?_, ?_⟩, ?_⟩
  · rw [hep₁]
    exact hfreed₁
  · rw [hep₁]
    exact hbag₁
  · rw [hdrop₂, hdrop₁, List.append_assoc]
  · refine List.nodup_append.mpr ⟨hnd₁, hnd₂, ?_⟩
    rintro r h₁ _ h₂ rfl
    exact ((hsecond r).mp h₂).2 ((hfreed₁ r).mp h₁).2
  · intro r
    rw [List.mem_append, hfreed₁, hsecond]
    tauto
  · refine fun b => bag_eq_none hs₂ (fun r hr => ?_) b
    have := (hbag₂ r).mp hr
    simp only [hbag₁, htag₁, hep₁] at this
    exact this.2 (hold r this.1.1)

end Runs

/-- A record of the first epoch that one collection has kept, and a record of the second. -/
def young : List (Bool × Action ℕ) :=
  (false, .retire 7) :: List.replicate 3 (false, .run true) ++
    (true, .collect) :: List.replicate 14 (true, .run true) ++
    (true, .retire 8) :: List.replicate 3 (true, .run true)

theorem collect_quiescent_young :
    ∃ s, Machine.runFn (threads ℕ).stepOf ⟨.new ℕ, fun _ => .new ℕ⟩ young = some s ∧
      s.mem.bags 0 = some 0 ∧ s.mem.bags 1 = some 1 ∧
      ∃ d₁ d₂ n, (∀ fuel ≥ n, call fuel s.mem (s.loc false) .collect = some (d₁, s.loc false)) ∧
        (∀ fuel ≥ n, call fuel d₁ (s.loc false) .collect = some (d₂, s.loc false)) ∧
        ∀ b, d₂.bags b = none := by
  obtain ⟨s, hs⟩ : ∃ s, Machine.runFn (threads ℕ).stepOf ⟨.new ℕ, fun _ => .new ℕ⟩ young
      = some s := ⟨_, rfl⟩
  have hr : ((threads ℕ).machine Bool).Reachable s := Machine.reachable_of_runFn hs
  have hq : Quiescent s := by
    cases hs
    refine ⟨fun i _ => .inl rfl, fun t => ?_⟩
    cases t <;> rfl
  have hidle : (s.loc false).pc = .idle := by
    cases hs
    rfl
  have hep : s.mem.epoch = 1 := by
    cases hs
    rfl
  obtain ⟨d₁, d₂, n, h₁, h₂, -, -, -, -, hempty⟩ :=
    collect_quiescent hr hq hidle (by rw [hep]; decide)
  refine ⟨s, hs, ?_, ?_, d₁, d₂, n, h₁, h₂, hempty⟩
  · cases hs
    rfl
  · cases hs
    rfl

end ZeroKv.Ebr
