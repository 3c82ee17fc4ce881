/-
# ZeroKv.Ebr.GracePeriod — a record retired under a guard outlives the guard.

The argument is relative to the moment the record is tagged.  Let `e` be the epoch at that moment and
let `T` hold a guard.  A collector that has already loaded the epoch has loaded at most `e`, so it can
advance the epoch to `e + 1` at most, whatever its half-finished scan has missed.  To get to `e + 2` a
collector has to load `e + 1` first; its whole scan then lies inside the guard's life, the high-water
mark it loads covers `T`'s slot, and the value it finds there is at most `e`.  So the epoch stays at
most `e + 1` while `T` holds its guard, and a record tagged `e` is not eligible.
-/
import ZeroKv.Ebr.Domain

namespace ZeroKv.Ebr

open Machine (StaysIn)

variable {G : Type}

/-- The steps the grace period is about: a thread holds at most one guard, and the epoch has not
reached the value that marks an unpinned slot. -/
def inScope (d : Domain G) (l : Local G) : Action G → Bool
  | .pin => d.epoch < unpinned && l.guards == 0
  | _ => d.epoch < unpinned

/-- The participants of the domain, kept in scope. -/
def disciplined (G : Type) : Threads (Domain G) (Local G) (Action G) := (threads G).restrict inScope

theorem disciplined_step {d d' : Domain G} {l l' : Local G} {a : Action G}
    (h : (disciplined G).step d l a = some (d', l')) :
    d.epoch < unpinned ∧ (a = .pin → l.guards = 0) ∧ StepTo d l a d' l' := by
  obtain ⟨hR, hst⟩ := Threads.restrict_step.mp h
  refine ⟨?_, ?_, stepTo_of_step hst⟩
  · cases a <;> simp_all [inScope]
  · rintro rfl
    simp_all [inScope]

/-! ## The invariant of the domain -/

/-- What the registers of a thread say about its slot. -/
structure RegOk (d : Domain G) (l : Local G) : Prop where
  slot : ∀ i, l.slot = some i → i < nSlots ∧ (d.slots i = unpinned ∨ d.slots i ≤ d.epoch)
  hwm : ∀ i, l.slot = some i → l.pc = .raiseHwm i ∨ i ≤ d.hwm
  one : l.guards ≤ 1
  held : 0 < l.guards → ∃ i, l.slot = some i ∧ i ≤ d.hwm ∧ d.slots i ≤ d.epoch

/-- What a thread knows at its program point.  The epochs it has loaded are not ahead of the domain,
the records it points to exist, and inside `pin` it holds no guard yet. -/
def PcOk (d : Domain G) (l : Local G) : Prop :=
  match l.pc with
  | .idle | .retireLoad _ | .colEpoch | .colCur => True
  | .probe _ | .exhausted => l.slot = none ∧ l.guards = 0
  | .claim i => i < nSlots ∧ l.slot = none ∧ l.guards = 0
  | .raiseHwm i => l.slot = some i ∧ l.guards = 0
  | .pinLoad i => l.slot = some i ∧ i ≤ d.hwm ∧ l.guards = 0
  | .pinStore i e => l.slot = some i ∧ i ≤ d.hwm ∧ l.guards = 0 ∧ e ≤ d.epoch
  | .retireHead r _ => r < d.recs.length
  | .retireCas r _ head => r < d.recs.length ∧ ∀ q ∈ head, q < d.recs.length
  | .colHwm g | .colScan g _ _ | .colCas g => g ≤ d.epoch
  | .bagSwap cur _ => cur ≤ d.epoch
  | .bagWalk cur _ node keep =>
      cur ≤ d.epoch ∧ (∀ q ∈ node, q < d.recs.length) ∧ ∀ q ∈ keep, q < d.recs.length
  | .keepHead cur _ n rest =>
      cur ≤ d.epoch ∧ n < d.recs.length ∧ ∀ q ∈ rest, q < d.recs.length
  | .keepCas cur _ n rest head =>
      cur ≤ d.epoch ∧ n < d.recs.length ∧ (∀ q ∈ rest, q < d.recs.length) ∧
        ∀ q ∈ head, q < d.recs.length

/-- Every pointer in the domain leads to a record, and only records are dropped. -/
structure DomainOk (d : Domain G) : Prop where
  bags : ∀ b, ∀ q ∈ d.bags b, q < d.recs.length
  next : ∀ r, ∀ q ∈ d.nextOf r, q < d.recs.length
  dropped : ∀ r ∈ d.dropped, r < d.recs.length

/-- What a step leaves alone, or only moves forward, whoever takes it. -/
structure Grows (d d' : Domain G) : Prop where
  epoch : d.epoch ≤ d'.epoch
  hwm : d.hwm ≤ d'.hwm
  len : d.recs.length ≤ d'.recs.length
  tag : ∀ r < d.recs.length, d'.tagOf r = d.tagOf r

theorem PcOk.grow {d d' : Domain G} {l : Local G} (h : PcOk d l) (hg : Grows d d') : PcOk d' l := by
  have he := hg.epoch
  have hh := hg.hwm
  have hn := hg.len
  unfold PcOk at h ⊢
  cases hpc : l.pc <;> simp only [hpc] at h ⊢ <;>
    first
    | exact h
    | omega
    | grind

theorem RegOk.grow {d d' : Domain G} {l : Local G} (h : RegOk d l) (hg : Grows d d')
    (hslot : ∀ i, l.slot = some i → d'.slots i = d.slots i) : RegOk d' l where
  slot i hi := by
    rw [hslot i hi]
    exact ⟨(h.slot i hi).1, (h.slot i hi).2.imp_right fun hle => hle.trans hg.epoch⟩
  hwm i hi := (h.hwm i hi).imp_right fun hle => hle.trans hg.hwm
  one := h.one
  held hpos := by
    obtain ⟨i, hi, hle, hv⟩ := h.held hpos
    exact ⟨i, hi, hle.trans hg.hwm, by rw [hslot i hi]; exact hv.trans hg.epoch⟩

/-! ## Each step keeps the invariant -/

section

variable {d d' : Domain G} {l l' : Local G} {a : Action G}

theorem grows_setNext (r : ℕ) (n : Option ℕ) : Grows d (d.setNext r n) where
  epoch := le_rfl
  hwm := le_rfl
  len := by simp
  tag q _ := by simp

/-- Every store of the domain only moves it forward: the epoch and the high-water mark grow, records
are added and keep their tags. -/
theorem step_grows (h : StepTo d l a d' l') : Grows d d' := by
  cases h with
  | raiseHwm => exact ⟨le_rfl, le_max_left _ _, le_rfl, fun _ _ => rfl⟩
  | retireLoad =>
      refine ⟨le_rfl, le_rfl, by simp, fun r hr => ?_⟩
      simp [Domain.tagOf, List.getElem?_append_left hr]
  | retireHead | keepHead | walkKeep => exact grows_setNext _ _
  | advance _ heq => exact ⟨by simp [heq], le_rfl, le_rfl, fun _ _ => rfl⟩
  | _ => exact ⟨le_rfl, le_rfl, le_rfl, fun _ _ => rfl⟩

theorem setSlot_slots_of_ne {i j : ℕ} (h : j ≠ i) (v : ℕ) :
    (d.setSlot i v).slots j = d.slots j := by
  simp [Domain.setSlot, Function.update_of_ne h]

/-- A thread only ever writes the slot it owns, or claims one that is free. -/
theorem step_slots (hp : PcOk d l) (h : StepTo d l a d' l') :
    (∀ i, l'.slot ≠ some i → d'.slots i = d.slots i) ∧
      (l'.slot = l.slot ∨ ∃ i, l.slot = none ∧ d.slots i = free ∧ l'.slot = some i) := by
  unfold PcOk at hp
  cases h with
  | unpin _ hslot =>
      refine ⟨fun i hi => setSlot_slots_of_ne ?_ _, .inl rfl⟩
      rintro rfl
      exact hi hslot
  | claim hpc hfree =>
      simp only [hpc] at hp
      refine ⟨fun j hj => setSlot_slots_of_ne ?_ _, .inr ⟨_, hp.2.1, hfree, rfl⟩⟩
      rintro rfl
      exact hj rfl
  | pinStore hpc =>
      simp only [hpc] at hp
      refine ⟨fun j hj => setSlot_slots_of_ne ?_ _, .inl rfl⟩
      rintro rfl
      exact hj hp.1
  | _ => exact ⟨fun _ _ => rfl, .inl rfl⟩

theorem mem_nextOf_setNext {r q x : ℕ} {n : Option ℕ} (hx : x ∈ (d.setNext r n).nextOf q) :
    x ∈ n ∨ x ∈ d.nextOf q := by
  by_cases hlt : r < d.recs.length
  · by_cases hq : r = q
    · subst hq
      rw [Domain.setNext_nextOf_self d hlt] at hx
      exact .inl hx
    · rw [Domain.setNext_nextOf_of_ne d hq] at hx
      exact .inr hx
  · have hid : d.setNext r n = d := by
      simp [Domain.setNext, List.modify_eq_self (Nat.le_of_not_lt hlt)]
    exact .inr (hid ▸ hx)

theorem DomainOk.setNext (h : DomainOk d) (r : ℕ) {n : Option ℕ}
    (hn : ∀ q ∈ n, q < d.recs.length) : DomainOk (d.setNext r n) where
  bags b q hq := by simpa using h.bags b q hq
  next p q hq := by
    rw [Domain.setNext_length]
    exact (mem_nextOf_setNext hq).elim (hn q) (h.next p q)
  dropped q hq := by simpa using h.dropped q hq

theorem DomainOk.setBag (h : DomainOk d) (b : ℕ) {n : Option ℕ}
    (hn : ∀ q ∈ n, q < d.recs.length) : DomainOk (d.setBag b n) where
  bags c q hq := by
    by_cases hc : c = b
    · subst hc
      exact hn q (by simpa [Domain.setBag] using hq)
    · exact h.bags c q (by simpa [Domain.setBag, Function.update_of_ne hc] using hq)
  next := h.next
  dropped := h.dropped

/-- Boxing a record adds a fresh index with no successor. -/
theorem DomainOk.alloc (h : DomainOk d) (x : Retired G) (hx : x.next = none) :
    DomainOk { d with recs := d.recs ++ [x] } where
  bags b q hq := by
    have := h.bags b q hq
    simp only [List.length_append, List.length_singleton]
    omega
  next r q hq := by
    simp only [Domain.nextOf] at hq
    simp only [List.length_append, List.length_singleton]
    by_cases hr : r < d.recs.length
    · rw [List.getElem?_append_left hr] at hq
      have := h.next r q hq
      omega
    · rw [List.getElem?_append_right (Nat.le_of_not_lt hr)] at hq
      cases hk : r - d.recs.length with
      | zero => simp [hk, hx] at hq
      | succ k => simp [hk] at hq
  dropped q hq := by
    have := h.dropped q hq
    simp only [List.length_append, List.length_singleton]
    omega

theorem step_domainOk (hd : DomainOk d) (hp : PcOk d l) (h : StepTo d l a d' l') :
    DomainOk d' := by
  unfold PcOk at hp
  cases h with
  | retireLoad => exact hd.alloc _ rfl
  | retireHead | keepHead => exact hd.setNext _ (hd.bags _)
  | retireCas hpc =>
      simp only [hpc] at hp
      exact hd.setBag _ (by simpa using hp.1)
  | keepCas hpc =>
      simp only [hpc] at hp
      exact hd.setBag _ (by simpa using hp.2.1)
  | bagSwap => exact hd.setBag _ (by simp)
  | walkKeep hpc =>
      simp only [hpc] at hp
      exact hd.setNext _ hp.2.2
  | @walkFree _ _ r _ _ hpc =>
      simp only [hpc] at hp
      refine { bags := hd.bags, next := hd.next, dropped := ?_ }
      intro q hq
      rcases List.mem_append.mp hq with hold | hnew
      · exact hd.dropped q hold
      · rw [List.mem_singleton.mp hnew]
        exact hp.2.1 r rfl
  | _ => exact { bags := hd.bags, next := hd.next, dropped := hd.dropped }

theorem pcOk_repush (hd : DomainOk d) (l : Local G) {cur b : ℕ} {keep : Option ℕ}
    (hcur : cur ≤ d.epoch) (hkeep : ∀ q ∈ keep, q < d.recs.length) :
    PcOk d { l with pc := repush cur b d keep } := by
  cases keep with
  | none =>
      show PcOk d { l with pc := nextBag cur b }
      unfold nextBag
      split
      · exact hcur
      · trivial
  | some n => exact ⟨hcur, hkeep n rfl, hd.next n⟩

theorem step_pcOk (hd : DomainOk d) (hr : RegOk d l) (hp : PcOk d l)
    (hpin : a = .pin → l.guards = 0) (h : StepTo d l a d' l') : PcOk d' l' := by
  unfold PcOk at hp
  cases h with
  | pinAgain hidle hslot =>
      exact ⟨hslot, (hr.hwm _ hslot).resolve_left (by simp [hidle]), hpin rfl⟩
  | pinFirst _ hslot => exact ⟨hslot, hpin rfl⟩
  | unpin _ _ _ hpc => rcases hpc with rfl | rfl <;> trivial
  | probeFree hpc hlt => simp only [hpc] at hp; exact ⟨hlt, hp⟩
  | probeTaken hpc | probeNone hpc => simp only [hpc] at hp; exact hp
  | claim hpc => simp only [hpc] at hp; exact ⟨rfl, hp.2.2⟩
  | claimLost hpc => simp only [hpc] at hp; exact hp.2
  | raiseHwm hpc => simp only [hpc] at hp; exact ⟨hp.1, le_max_right _ _, hp.2⟩
  | pinLoad hpc => simp only [hpc] at hp; exact ⟨hp.1, hp.2.1, hp.2.2, le_rfl⟩
  | retireLoad => simp [PcOk]
  | retireHead hpc =>
      simp only [hpc] at hp
      simpa [PcOk] using ⟨hp, hd.bags _⟩
  | retireLost hpc => simp only [hpc] at hp; exact hp.1
  | colEpoch | colCur => exact le_refl d.epoch
  | colHwm hpc | scanNext hpc | scanDone hpc => simp only [hpc] at hp; exact hp
  | bagSwap hpc => simp only [hpc] at hp; exact ⟨hp, hd.bags _, by simp⟩
  | walkFree hpc => simp only [hpc] at hp; exact ⟨hp.1, hd.next _, hp.2.2⟩
  | walkKeep hpc =>
      simp only [hpc] at hp
      simpa [PcOk] using ⟨hp.1, hd.next _, hp.2.1 _ rfl⟩
  | walkEnd hpc => simp only [hpc] at hp; exact pcOk_repush hd l hp.1 hp.2.2
  | keepHead hpc =>
      simp only [hpc] at hp
      simpa [PcOk] using ⟨hp.1, hp.2.1, hp.2.2, hd.bags _⟩
  | keepCas hpc =>
      simp only [hpc] at hp
      exact pcOk_repush (hd.setBag _ (by simpa using hp.2.1)) l hp.1 hp.2.2.1
  | keepLost hpc => simp only [hpc] at hp; exact ⟨hp.1, hp.2.1, hp.2.2.1⟩
  | _ => trivial

/-- When the acting thread keeps its slot, its guards and the slot's value, and was not about to
raise the high-water mark, its registers stay in order. -/
theorem RegOk.move (hr : RegOk d l) (hg : Grows d d') (hslots : d'.slots = d.slots)
    (hs : l'.slot = l.slot) (hgs : l'.guards = l.guards) (hpc : ∀ i, l.pc ≠ .raiseHwm i) :
    RegOk d' l' := by
  have h := hr.grow hg fun i _ => by rw [hslots]
  refine ⟨by rw [hs]; exact h.slot, ?_, by rw [hgs]; exact h.one, by rw [hgs, hs]; exact h.held⟩
  intro i hi
  exact .inr ((h.hwm i (hs ▸ hi)).resolve_left (hpc i))

theorem step_regOk (hr : RegOk d l) (hp : PcOk d l) (h : StepTo d l a d' l') : RegOk d' l' := by
  have hg : Grows d d' := step_grows h
  unfold PcOk at hp
  cases h with
  | @unpin idx _ hidle hslot =>
      have hone := hr.one
      refine ⟨fun i hi => ?_, fun i hi => ?_, ?_, fun hpos => ?_⟩
      · obtain rfl : idx = i := Option.some.inj (hslot.symm.trans hi)
        exact ⟨(hr.slot idx hslot).1, .inl (by simp [Domain.setSlot])⟩
      · exact .inr ((hr.hwm i hi).resolve_left (by simp [hidle]))
      · show l.guards - 1 ≤ 1
        omega
      · have : 0 < l.guards - 1 := hpos
        omega
  | claim hpc =>
      simp only [hpc] at hp
      refine ⟨?_, ?_, hr.one, fun hpos => absurd hpos (by simp [hp.2.2])⟩
      · rintro j ⟨⟩
        exact ⟨hp.1, .inl (by simp [Domain.setSlot])⟩
      · rintro j ⟨⟩
        exact .inl rfl
  | @raiseHwm i _ hpc =>
      simp only [hpc] at hp
      refine ⟨hr.slot, fun j hj => .inr ?_, hr.one, fun hpos => absurd hpos (by simp [hp.2])⟩
      obtain rfl : i = j := Option.some.inj (hp.1.symm.trans hj)
      exact le_max_right _ _
  -- the epoch was loaded before, and it only grows
  | @pinStore idx e _ hpc =>
      simp only [hpc] at hp
      obtain ⟨hslot, hhwm, hzero, hle⟩ := hp
      have hval : (d.setSlot idx e).slots idx ≤ d.epoch := by simpa [Domain.setSlot] using hle
      refine ⟨fun j hj => ?_, fun j hj => .inr ?_, ?_, fun _ => ⟨idx, hslot, hhwm, hval⟩⟩
      · obtain rfl : idx = j := Option.some.inj (hslot.symm.trans hj)
        exact ⟨(hr.slot idx hslot).1, .inr hval⟩
      · obtain rfl : idx = j := Option.some.inj (hslot.symm.trans hj)
        exact hhwm
      · show l.guards + 1 ≤ 1
        omega
  | _ => exact hr.move hg rfl rfl rfl (by simp [*])

end

/-- No slot has two owners. -/
def SlotsApart (l m : Local G) : Prop := ∀ i, l.slot = some i → m.slot ≠ some i

/-- A slot in use never reads as free, as long as the epoch is in scope. -/
theorem RegOk.slot_ne_free {d : Domain G} {l : Local G} (hr : RegOk d l) (hd : d.epoch < unpinned)
    {i : ℕ} (hi : l.slot = some i) : d.slots i ≠ free := by
  rcases (hr.slot i hi).2 with h | h
  · rw [h]
    decide
  · intro hf
    rw [hf] at h
    exact absurd (h.trans_lt hd) (by decide)

/-- The invariant of the domain, thread by thread. -/
def domainInvariant (G : Type) : Threads.Invariant (disciplined G) where
  shared := DomainOk
  own d l := RegOk d l ∧ PcOk d l
  apart := SlotsApart
  init_shared :=
    { bags := by simp [disciplined, Threads.restrict, threads, Domain.new]
      next := by simp [disciplined, Threads.restrict, threads, Domain.new, Domain.nextOf]
      dropped := by simp [disciplined, Threads.restrict, threads, Domain.new] }
  init_own :=
    ⟨{ slot := by simp [disciplined, Threads.restrict, threads, Local.new]
       hwm := by simp [disciplined, Threads.restrict, threads, Local.new]
       one := by simp [disciplined, Threads.restrict, threads, Local.new]
       held := by simp [disciplined, Threads.restrict, threads, Local.new] }, trivial⟩
  init_apart := by simp [SlotsApart, disciplined, Threads.restrict, threads, Local.new]
  keep := by
    intro d l a d' l' hd ⟨hr, hp⟩ hst
    obtain ⟨-, hpin, h⟩ := disciplined_step hst
    exact ⟨step_domainOk hd hp h, step_regOk hr hp h, step_pcOk hd hr hp hpin h⟩
  bystander := by
    intro d l a d' l' m hd ⟨hr, hp⟩ ⟨hmr, hmp⟩ hlm hml hst
    obtain ⟨hscope, -, h⟩ := disciplined_step hst
    have hg := step_grows h
    obtain ⟨hslots, hslot⟩ := step_slots hp h
    have hlm' : SlotsApart l' m := by
      intro i hi hmi
      rcases hslot with hsame | ⟨j, -, hfree, hj⟩
      · exact hlm i (hsame ▸ hi) hmi
      · obtain rfl : j = i := Option.some.inj (hj.symm.trans hi)
        exact hmr.slot_ne_free hscope hmi hfree
    have hml' : SlotsApart m l' := fun i hi hli => hlm' i hli hi
    refine ⟨⟨hmr.grow hg fun i hi => hslots i (hml' i hi), hmp.grow hg⟩, hlm', hml'⟩

/-! ## The grace period -/

section

variable {d d' : Domain G} {l l' : Local G} {a : Action G}

/-- The epoch moves only when a collector that has loaded it wins its compare-exchange. -/
theorem step_epoch (h : StepTo d l a d' l') :
    d'.epoch = d.epoch ∨ ∃ g, l.pc = .colCas g ∧ d.epoch = g ∧ d'.epoch = g + 1 := by
  cases h with
  | advance hpc heq => exact .inr ⟨_, hpc, heq, rfl⟩
  | _ => exact .inl rfl

/-- A drop function runs only for a record that is eligible at an epoch the collector has loaded. -/
theorem step_dropped (hp : PcOk d l) (h : StepTo d l a d' l') {r : ℕ} (hr : r ∈ d'.dropped) :
    r ∈ d.dropped ∨ ∃ cur ≤ d.epoch, d.eligible r cur := by
  unfold PcOk at hp
  cases h with
  | @walkFree cur _ _ _ _ hpc helig =>
      simp only [hpc] at hp
      rcases List.mem_append.mp hr with hold | hnew
      · exact .inl hold
      · rw [List.mem_singleton.mp hnew]
        exact .inr ⟨cur, hp.1, helig⟩
  | _ => exact .inl hr

/-- While a thread keeps its guard it does not touch its slot. -/
theorem step_held (hr : RegOk d l) (hp : PcOk d l) (hg : 0 < l.guards) (hg' : 0 < l'.guards)
    (h : StepTo d l a d' l') : d'.slots = d.slots ∧ l'.slot = l.slot := by
  have hone := hr.one
  unfold PcOk at hp
  cases h with
  | unpin =>
      -- the only guard is gone after the store
      have : 0 < l.guards - 1 := hg'
      omega
  | claim hpc | pinStore hpc =>
      simp only [hpc] at hp
      omega
  | _ => exact ⟨rfl, rfl⟩

/-- A collector that has loaded `e + 1` is not past slot `i`, and its scan covers it. -/
def ScanOk (i e : ℕ) : Pc G → Prop
  | .colScan g hwm p => g = e + 1 → i ≤ hwm ∧ p ≤ i
  | .colCas g => g ≠ e + 1
  | _ => True

theorem scanOk_repush (i e cur b : ℕ) (d : Domain G) (keep : Option ℕ) :
    ScanOk i e (repush cur b d keep) := by
  cases keep with
  | none =>
      show ScanOk i e (nextBag cur b)
      unfold nextBag
      split <;> trivial
  | some n => trivial

/-- The slot of a guard older than `e + 1` stops a collector that has loaded `e + 1`. -/
theorem blocks_of_le {v e : ℕ} (he : e < unpinned) (hv : v ≤ e) : Domain.blocks v (e + 1) = true := by
  have hfree : unpinned < free := by decide
  simp only [Domain.blocks, Bool.and_eq_true, bne_iff_ne, ne_eq]
  omega

theorem step_scanOk {i e : ℕ} (he : e < unpinned) (hi : i < nSlots) (hhwm : i ≤ d.hwm)
    (hv : d.slots i ≤ e) (hscan : ScanOk i e l.pc) (h : StepTo d l a d' l') :
    ScanOk i e l'.pc := by
  -- had the scan loaded `e + 1`, slot `i` would still be ahead of it and would stop it
  have hahead : ∀ {g hwm p}, l.pc = .colScan g hwm p → Domain.blocks (d.slots p) g = false →
      g = e + 1 → i ≤ hwm ∧ p < i := by
    intro g hwm p hpc hpass hge
    rw [hpc] at hscan
    obtain ⟨hle, hpi⟩ := hscan hge
    refine ⟨hle, lt_of_le_of_ne hpi ?_⟩
    rintro rfl
    rw [hge, blocks_of_le he hv] at hpass
    exact absurd hpass (by simp)
  cases h with
  | scanNext hpc hpass _ =>
      intro hge
      exact ⟨(hahead hpc hpass hge).1, (hahead hpc hpass hge).2⟩
  | scanDone hpc hpass hdone =>
      intro hge
      have := hahead hpc hpass hge
      omega
  | colHwm =>
      intro _
      exact ⟨le_min hhwm (Nat.le_sub_one_of_lt hi), Nat.zero_le i⟩
  | unpin _ _ _ hpc => rcases hpc with rfl | rfl <;> trivial
  | walkEnd | keepCas => exact scanOk_repush _ _ _ _ _ _
  | _ => trivial

end

/-- Record `r`, tagged `e` while `T` held its guard on slot `i`, is safe: the epoch has moved on by
one at most, and no collector is about to move it further. -/
structure Grace {τ : Type} (T : τ) (i e r : ℕ) (s : Config τ (Domain G) (Local G)) : Prop where
  epoch : s.mem.epoch ≤ e + 1
  slot : (s.loc T).slot = some i
  pinned : s.mem.slots i ≤ e
  hwm : i ≤ s.mem.hwm
  exist : r < s.mem.recs.length
  tag : s.mem.tagOf r = e
  scans : ∀ c, ScanOk i e (s.loc c).pc
  kept : r ∉ s.mem.dropped

theorem Grace.step {τ : Type} [DecidableEq τ] {T : τ} {i e r : ℕ}
    {s t : Config τ (Domain G) (Local G)} {u : τ} {a : Action G} (he : e < unpinned)
    (hinv : (domainInvariant G).Holds s) (hT : 0 < (s.loc T).guards) (hT' : 0 < (t.loc T).guards)
    (h : Grace T i e r s) (hst : (disciplined G).stepOf s (u, a) = some t) : Grace T i e r t := by
  have hinv' := (domainInvariant G).holds_step hinv hst
  obtain ⟨d', l', hml, rfl⟩ := Threads.stepOf_eq_some.mp hst
  obtain ⟨hscope, -, hs⟩ := disciplined_step hml
  have hown := hinv.own u
  have hg := step_grows hs
  have hi : i < nSlots := ((hinv.own T).1.slot i h.slot).1
  -- `T` itself leaves its slot alone, and nobody else owns it
  have hslotT : (Function.update s.loc u l' T).slot = some i ∧ d'.slots i = s.mem.slots i := by
    by_cases hu : T = u
    · subst hu
      simp only [Function.update_self] at hT' ⊢
      obtain ⟨hslots, hslot⟩ := step_held hown.1 hown.2 hT hT' hs
      exact ⟨hslot.trans h.slot, by rw [hslots]⟩
    · have hap := hinv'.apart u T (Ne.symm hu) i
      simp only [Function.update_self, Function.update_of_ne hu] at hap ⊢
      exact ⟨h.slot, (step_slots hown.2 hs).1 i fun hli => hap hli h.slot⟩
  refine
    { epoch := ?_
      slot := hslotT.1
      pinned := by simpa only [hslotT.2] using h.pinned
      hwm := h.hwm.trans hg.hwm
      exist := h.exist.trans_le hg.len
      tag := (hg.tag r h.exist).trans h.tag
      scans := ?_
      kept := ?_ }
  · rcases step_epoch hs with hsame | ⟨g, hpc, hge, hnew⟩
    · exact hsame.trans_le h.epoch
    · have hscan := h.scans u
      rw [hpc] at hscan
      have hle := h.epoch
      simp only [ScanOk] at hscan
      simp only [hnew]
      omega
  · intro c
    by_cases hc : c = u
    · subst hc
      simpa using step_scanOk he hi h.hwm h.pinned (h.scans c) hs
    · simpa [Function.update_of_ne hc] using h.scans c
  · intro hdrop
    rcases step_dropped hown.2 hs hdrop with hold | ⟨cur, hcur, helig⟩
    · exact h.kept hold
    · have hle := h.epoch
      have hbig : unpinned < 2 ^ 64 - 1 := by decide
      simp only [Domain.eligible, h.tag, min_le_iff] at helig
      omega

/-- The grace begins when the record is tagged, for every thread that holds a guard then. -/
theorem Grace.start {τ : Type} [DecidableEq τ] {s t : Config τ (Domain G) (Local G)} {T u : τ}
    {garbage : G} {a : Action G} (hinv : (domainInvariant G).Holds s) (hT : 0 < (s.loc T).guards)
    (hu : (s.loc u).pc = .retireLoad garbage) (hst : (disciplined G).stepOf s (u, a) = some t) :
    ∃ i e, e < unpinned ∧ Grace T i e s.mem.recs.length t := by
  obtain ⟨i, hslot, hhwm, hv⟩ := (hinv.own T).1.held hT
  obtain ⟨d', l', hml, rfl⟩ := Threads.stepOf_eq_some.mp hst
  obtain ⟨hscope, -, hs⟩ := disciplined_step hml
  obtain ⟨rfl, rfl⟩ : d' = { s.mem with recs := s.mem.recs ++ [⟨garbage, s.mem.epoch, none⟩] } ∧
      l' = { s.loc u with pc := .retireHead s.mem.recs.length (s.mem.epoch % nBags) } := by
    cases hs <;> simp_all
  refine ⟨i, s.mem.epoch, hscope, ?_⟩
  exact
    { epoch := Nat.le_succ _
      slot := by
        rw [← hslot]
        exact apply_update_of_eq Local.slot (by rfl) T
      pinned := hv
      hwm := hhwm
      exist := by simp
      tag := by simp [Domain.tagOf]
      scans := by
        -- so far no collector has loaded more than the current epoch
        intro c
        by_cases hc : c = u
        · subst hc
          simp [ScanOk]
        · have hpc := (hinv.own c).2
          simp only [Function.update_of_ne hc]
          unfold PcOk at hpc
          cases hc' : (s.loc c).pc <;> simp only [ScanOk, hc'] at hpc ⊢ <;> omega
      kept := fun hmem => lt_irrefl _ (hinv.shared.dropped _ hmem) }

/-- **Grace period.**  A record whose tag is loaded while `T` holds a guard is not dropped by any
collector as long as `T` holds that guard. -/
theorem ebr_grace_period {τ : Type} [DecidableEq τ] {s s' t : Config τ (Domain G) (Local G)}
    {T u : τ} {garbage : G} {strong : Bool}
    (hs : ((disciplined G).machine τ).Reachable s) (hT : 0 < (s.loc T).guards)
    (hu : (s.loc u).pc = .retireLoad garbage)
    (hst : (disciplined G).stepOf s (u, .run strong) = some s')
    (hstay : ((disciplined G).machine τ).StaysIn (fun x => 0 < (x.loc T).guards) s' t) :
    s.mem.recs.length ∉ t.mem.dropped := by
  obtain ⟨i, e, he, hgrace⟩ := Grace.start ((domainInvariant G).holds hs) hT hu hst
  refine (StaysIn.invariant (hs.next hst) hgrace ?_ hstay).kept
  rintro v ⟨w, a⟩ v' hv hP hP' hgr hstep
  exact Grace.step he ((domainInvariant G).holds hv) hP hP' hgr hstep

/-- Thread `false` pins, and thread `true` is about to tag a record. -/
def samplePinned : List (Bool × Action ℕ) :=
  (false, .pin) :: List.replicate 5 (false, .run true) ++ [(true, .retire 7)]

/-- Thread `true` pushes the tagged record and collects twice.  The first collection moves the epoch, the
second finds the guard of thread `false` behind. -/
def sampleCollected : List (Bool × Action ℕ) :=
  List.replicate 2 (true, .run true) ++ (true, .collect) :: List.replicate 14 (true, .run true) ++
    (true, .collect) :: List.replicate 13 (true, .run true)

/-- The configuration a schedule of two threads leads to. -/
def sampleAt (ls : List (Bool × Action ℕ)) : Config Bool (Domain ℕ) (Local ℕ) :=
  (Machine.runFn (disciplined ℕ).stepOf ⟨.new ℕ, fun _ => .new ℕ⟩ ls).getD
    ⟨.new ℕ, fun _ => .new ℕ⟩

theorem ebr_grace_period_sample :
    0 < ((sampleAt samplePinned).loc false).guards ∧
      (sampleAt (samplePinned ++ (true, .run true) :: sampleCollected)).mem.epoch = 1 ∧
      0 ∉ (sampleAt (samplePinned ++ (true, .run true) :: sampleCollected)).mem.dropped := by
  have hs : ((disciplined ℕ).machine Bool).Reachable (sampleAt samplePinned) :=
    Machine.reachable_of_runFn
      (show Machine.runFn _ _ samplePinned = some (sampleAt samplePinned) from rfl)
  have hT : 0 < ((sampleAt samplePinned).loc false).guards := by decide
  have hu : ((sampleAt samplePinned).loc true).pc = .retireLoad 7 := rfl
  have hst : (disciplined ℕ).stepOf (sampleAt samplePinned) (true, .run true) =
      some (sampleAt (samplePinned ++ [(true, .run true)])) := rfl
  have hstay : ((disciplined ℕ).machine Bool).StaysIn (fun x => 0 < (x.loc false).guards)
      (sampleAt (samplePinned ++ [(true, .run true)]))
      (sampleAt (samplePinned ++ (true, .run true) :: sampleCollected)) := by
    refine StaysIn.runFn
      (f := fun s l => ((disciplined ℕ).stepOf s l).filter fun t => 0 < (t.loc false).guards)
      (.refl (by decide)) (fun s t l _ hst => ?_)
      (show Machine.runFn _ _ sampleCollected = some _ from rfl)
    obtain ⟨hstep, hguard⟩ := Option.filter_eq_some_iff.mp hst
    exact ⟨hstep, of_decide_eq_true hguard⟩
  exact ⟨hT, by decide, ebr_grace_period hs hT hu hst hstay⟩

end ZeroKv.Ebr
