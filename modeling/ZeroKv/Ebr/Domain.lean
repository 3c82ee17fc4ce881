/-
# ZeroKv.Ebr.Domain — the epoch-based reclamation domain, one atomic access at a time.

`ebr.rs` has one process-wide `Domain`: an epoch counter, a table of participant slots with a
high-water mark, and three Treiber stacks of retired records.  Here its operations are unfolded into
the accesses they make.  Each load, store, swap, compare-exchange and fetch-max of `local_slot`,
`pin`, `Guard::drop`, `retire`, `try_collect` and `reclaim_bag` is one step; the walk over a detached
chain, which no other thread can see, takes one step for each record.

A record is an index into `recs`; the intrusive `next` pointers are modelled as the code has them.
`G` is what a record holds, the retired pointer together with its `drop_fn`.  `dropped` is a history
variable: the records whose `drop_fn` has run, in order.
-/
import ZeroKv.Lib.Threads
import ZeroKv.Lib.Word

namespace ZeroKv.Ebr

/-- `N_SLOTS`. -/
def nSlots : ℕ := 4096

/-- `N_BAGS`. -/
def nBags : ℕ := 3

/-- `FREE`: the slot is unclaimed. -/
def free : ℕ := 2 ^ 64 - 1

/-- `UNPINNED`: the slot is claimed by a thread that is not pinned. -/
def unpinned : ℕ := 2 ^ 62

/-- `COLLECT_INTERVAL`. -/
def collectInterval : ℕ := 128

/-- `Retired`; `garbage` is the pair of pointer and `drop_fn`. -/
structure Retired (G : Type) where
  garbage : G
  epoch : ℕ
  next : Option ℕ

/-- `Domain`, with the heap of its records and the log of the drop functions that have run. -/
structure Domain (G : Type) where
  epoch : ℕ
  slots : ℕ → ℕ
  bags : ℕ → Option ℕ
  hwm : ℕ
  recs : List (Retired G)
  dropped : List ℕ

/-- `Domain::new`. -/
def Domain.new (G : Type) : Domain G where
  epoch := 0
  slots := fun _ => free
  bags := fun _ => none
  hwm := 0
  recs := []
  dropped := []

namespace Domain

variable {G : Type}

/-- The `next` field of a record. -/
def nextOf (d : Domain G) (r : ℕ) : Option ℕ := (d.recs[r]?).bind Retired.next

/-- The epoch tag of a record. -/
def tagOf (d : Domain G) (r : ℕ) : ℕ := ((d.recs[r]?).map Retired.epoch).getD 0

/-- Write the `next` field of a record. -/
def setNext (d : Domain G) (r : ℕ) (n : Option ℕ) : Domain G :=
  { d with recs := d.recs.modify r fun x => { x with next := n } }

/-- Store a participant slot. -/
def setSlot (d : Domain G) (i v : ℕ) : Domain G :=
  { d with slots := Function.update d.slots i v }

/-- Store the head of a bag. -/
def setBag (d : Domain G) (b : ℕ) (h : Option ℕ) : Domain G :=
  { d with bags := Function.update d.bags b h }

/-- The test of `reclaim_bag`: the record was retired two epochs ago or earlier.  The addition
saturates at the largest word. -/
def eligible (d : Domain G) (r cur : ℕ) : Prop := min (d.tagOf r + 2) (2 ^ 64 - 1) ≤ cur

instance (d : Domain G) (r cur : ℕ) : Decidable (d.eligible r cur) :=
  inferInstanceAs (Decidable (_ ≤ _))

/-- The test of the slot scan: a pinned participant is not at epoch `g`. -/
def blocks (v g : ℕ) : Bool := v != free && v != unpinned && v != g

section

variable (d : Domain G)

@[simp] theorem setNext_epoch (r : ℕ) (n : Option ℕ) : (d.setNext r n).epoch = d.epoch := rfl
@[simp] theorem setNext_slots (r : ℕ) (n : Option ℕ) : (d.setNext r n).slots = d.slots := rfl
@[simp] theorem setNext_bags (r : ℕ) (n : Option ℕ) : (d.setNext r n).bags = d.bags := rfl
@[simp] theorem setNext_hwm (r : ℕ) (n : Option ℕ) : (d.setNext r n).hwm = d.hwm := rfl
@[simp] theorem setNext_dropped (r : ℕ) (n : Option ℕ) : (d.setNext r n).dropped = d.dropped := rfl
@[simp] theorem setNext_length (r : ℕ) (n : Option ℕ) :
    (d.setNext r n).recs.length = d.recs.length := by simp [setNext]

@[simp] theorem setNext_tagOf (r : ℕ) (n : Option ℕ) (q : ℕ) :
    (d.setNext r n).tagOf q = d.tagOf q := by
  by_cases h : r = q
  · subst h
    cases hq : d.recs[r]? <;> simp [tagOf, setNext, hq]
  · simp [tagOf, setNext, h]

theorem setNext_nextOf_self {r : ℕ} (h : r < d.recs.length) (n : Option ℕ) :
    (d.setNext r n).nextOf r = n := by
  simp [nextOf, setNext, h]

theorem setNext_nextOf_of_ne {r q : ℕ} (h : r ≠ q) (n : Option ℕ) :
    (d.setNext r n).nextOf q = d.nextOf q := by
  simp [nextOf, setNext, h]

end

end Domain

/-! ## One thread -/

/-- Program points.  `g` is the epoch a collector loaded first, `cur` the one it loaded after its
compare-exchange, `b` the bag it is working on. -/
inductive Pc (G : Type)
  | idle
  /-- `local_slot`: load slot `i`. -/
  | probe (i : ℕ)
  /-- `local_slot`: compare-exchange slot `i` from `FREE` to `UNPINNED`. -/
  | claim (i : ℕ)
  /-- `local_slot`: `hwm.fetch_max(i)`. -/
  | raiseHwm (i : ℕ)
  /-- `local_slot` found no free slot. -/
  | exhausted
  /-- `pin`: load the epoch. -/
  | pinLoad (idx : ℕ)
  /-- `pin`: publish the epoch. -/
  | pinStore (idx e : ℕ)
  /-- `retire`: load the epoch and box the record. -/
  | retireLoad (garbage : G)
  /-- `retire`: load the head of the bag and link the record to it. -/
  | retireHead (r bag : ℕ)
  /-- `retire`: try to publish the record. -/
  | retireCas (r bag : ℕ) (head : Option ℕ)
  /-- `try_collect`: load the epoch. -/
  | colEpoch
  /-- `try_collect`: load the high-water mark. -/
  | colHwm (g : ℕ)
  /-- `try_collect`: load slot `i` of the scan over `0..=hwm`. -/
  | colScan (g hwm i : ℕ)
  /-- `try_collect`: the scan went through, try to advance. -/
  | colCas (g : ℕ)
  /-- `try_collect`: load the epoch again. -/
  | colCur
  /-- `reclaim_bag`: detach the bag. -/
  | bagSwap (cur b : ℕ)
  /-- `reclaim_bag`: look at the next record of the detached chain. -/
  | bagWalk (cur b : ℕ) (node keep : Option ℕ)
  /-- `reclaim_bag`: load the head of the bag, to push `n` back. -/
  | keepHead (cur b n : ℕ) (rest : Option ℕ)
  /-- `reclaim_bag`: try to push `n` back. -/
  | keepCas (cur b n : ℕ) (rest head : Option ℕ)

/-- The registers of one thread: its thread-locals `SLOT` and `TICK`, the number of guards it holds
and its program point. -/
structure Local (G : Type) where
  slot : Option ℕ
  tick : ℕ
  guards : ℕ
  pc : Pc G

def Local.new (G : Type) : Local G := { slot := none, tick := 0, guards := 0, pc := .idle }

/-- What a thread may do next: start a call, or take the next step of the call it is in.  The flag
of `run` is only looked at by `compare_exchange_weak`, which fails spuriously when it is `false`. -/
inductive Action (G : Type)
  | pin
  | unpin
  | retire (garbage : G)
  | collect
  | run (strong : Bool)

variable {G : Type}

/-- Where a collector goes after it is done with bag `b`. -/
def nextBag (cur b : ℕ) : Pc G := if b + 1 < nBags then .bagSwap cur (b + 1) else .idle

/-- Where a collector goes with what is left of its keep-list. -/
def repush (cur b : ℕ) (d : Domain G) : Option ℕ → Pc G
  | none => nextBag cur b
  | some n => .keepHead cur b n (d.nextOf n)

/-- Where a collector goes after it looked at slot `i`. -/
def afterScan (g hwm i : ℕ) : Pc G := if i < hwm then .colScan g hwm (i + 1) else .colCas g

/-- The next access of the call a thread is in. -/
def stepRun (d : Domain G) (l : Local G) (strong : Bool) : Option (Domain G × Local G) :=
  match l.pc with
  | .idle | .exhausted => none
  | .probe i =>
      if i < nSlots then
        if d.slots i = free then some (d, { l with pc := .claim i })
        else some (d, { l with pc := .probe (i + 1) })
      else some (d, { l with pc := .exhausted })
  -- the slot may have been taken since the load
  | .claim i =>
      if d.slots i = free then some (d.setSlot i unpinned, { l with slot := some i, pc := .raiseHwm i })
      else some (d, { l with pc := .probe (i + 1) })
  | .raiseHwm i => some ({ d with hwm := max d.hwm i }, { l with pc := .pinLoad i })
  | .pinLoad idx => some (d, { l with pc := .pinStore idx d.epoch })
  | .pinStore idx e => some (d.setSlot idx e, { l with guards := l.guards + 1, pc := .idle })
  | .retireLoad g =>
      some ({ d with recs := d.recs ++ [{ garbage := g, epoch := d.epoch, next := none }] },
        { l with pc := .retireHead d.recs.length (d.epoch % nBags) })
  | .retireHead r b =>
      some (d.setNext r (d.bags b), { l with pc := .retireCas r b (d.bags b) })
  | .retireCas r b head =>
      if d.bags b = head ∧ strong = true then some (d.setBag b (some r), { l with pc := .idle })
      else some (d, { l with pc := .retireHead r b })
  | .colEpoch => some (d, { l with pc := .colHwm d.epoch })
  | .colHwm g => some (d, { l with pc := .colScan g (min d.hwm (nSlots - 1)) 0 })
  | .colScan g hwm i =>
      if Domain.blocks (d.slots i) g then some (d, { l with pc := .colCur })
      else some (d, { l with pc := afterScan g hwm i })
  | .colCas g =>
      if d.epoch = g then some ({ d with epoch := g + 1 }, { l with pc := .colCur })
      else some (d, { l with pc := .colCur })
  | .colCur => some (d, { l with pc := .bagSwap d.epoch 0 })
  | .bagSwap cur b =>
      some (d.setBag b none, { l with pc := .bagWalk cur b (d.bags b) none })
  | .bagWalk cur b (some r) keep =>
      if d.eligible r cur then
        some ({ d with dropped := d.dropped ++ [r] }, { l with pc := .bagWalk cur b (d.nextOf r) keep })
      else
        some (d.setNext r keep, { l with pc := .bagWalk cur b (d.nextOf r) (some r) })
  | .bagWalk cur b none keep => some (d, { l with pc := repush cur b d keep })
  -- what is not yet eligible goes back on the bag, record by record
  | .keepHead cur b n rest =>
      some (d.setNext n (d.bags b), { l with pc := .keepCas cur b n rest (d.bags b) })
  | .keepCas cur b n rest head =>
      if d.bags b = head ∧ strong = true then
        some (d.setBag b (some n), { l with pc := repush cur b d rest })
      else some (d, { l with pc := .keepHead cur b n rest })

/-- Where `pin` starts: with the slot cached in `SLOT`, or with the probe for a free one. -/
def localSlot : Option ℕ → Pc G
  | some i => .pinLoad i
  | none => .probe 0

/-- `Guard::drop`: the slot store, and the amortised decision to collect. -/
def stepUnpin (d : Domain G) (l : Local G) (idx : ℕ) : Domain G × Local G :=
  let tick := (l.tick + 1) % 2 ^ 32
  (d.setSlot idx unpinned,
    { l with
      tick := tick
      guards := l.guards - 1
      pc := if tick % collectInterval = 0 then .colEpoch else .idle })

/-- Everything a thread can do. -/
def step (d : Domain G) (l : Local G) : Action G → Option (Domain G × Local G)
  | .run strong => stepRun d l strong
  | .pin =>
      match l.pc with
      | .idle => some (d, { l with pc := localSlot l.slot })
      | _ => none
  | .unpin =>
      match l.pc, l.slot with
      | .idle, some idx => if 0 < l.guards then some (stepUnpin d l idx) else none
      | _, _ => none
  | .retire g =>
      match l.pc with
      | .idle => some (d, { l with pc := .retireLoad g })
      | _ => none
  | .collect =>
      match l.pc with
      | .idle => some (d, { l with pc := .colEpoch })
      | _ => none

/-! ## The step function, read backwards

One constructor for each branch of `step`, with the test that selects it.  Proofs about steps go by
cases on this relation and never unfold `step` again. -/

/-- The steps of a thread in memory `d` with registers `l`. -/
inductive StepTo (d : Domain G) (l : Local G) : Action G → Domain G → Local G → Prop
  | pinAgain {i : ℕ} : l.pc = .idle → l.slot = some i →
      StepTo d l .pin d { l with pc := .pinLoad i }
  | pinFirst : l.pc = .idle → l.slot = none → StepTo d l .pin d { l with pc := .probe 0 }
  | unpin {idx : ℕ} {pc : Pc G} : l.pc = .idle → l.slot = some idx → 0 < l.guards →
      pc = .colEpoch ∨ pc = .idle →
      StepTo d l .unpin (d.setSlot idx unpinned)
        { l with tick := (l.tick + 1) % 2 ^ 32, guards := l.guards - 1, pc := pc }
  | retire {g : G} : l.pc = .idle → StepTo d l (.retire g) d { l with pc := .retireLoad g }
  | collect : l.pc = .idle → StepTo d l .collect d { l with pc := .colEpoch }
  | probeFree {i : ℕ} {b : Bool} : l.pc = .probe i → i < nSlots → d.slots i = free →
      StepTo d l (.run b) d { l with pc := .claim i }
  | probeTaken {i : ℕ} {b : Bool} : l.pc = .probe i → i < nSlots → d.slots i ≠ free →
      StepTo d l (.run b) d { l with pc := .probe (i + 1) }
  | probeNone {i : ℕ} {b : Bool} : l.pc = .probe i → nSlots ≤ i →
      StepTo d l (.run b) d { l with pc := .exhausted }
  | claim {i : ℕ} {b : Bool} : l.pc = .claim i → d.slots i = free →
      StepTo d l (.run b) (d.setSlot i unpinned) { l with slot := some i, pc := .raiseHwm i }
  | claimLost {i : ℕ} {b : Bool} : l.pc = .claim i → d.slots i ≠ free →
      StepTo d l (.run b) d { l with pc := .probe (i + 1) }
  | raiseHwm {i : ℕ} {b : Bool} : l.pc = .raiseHwm i →
      StepTo d l (.run b) { d with hwm := max d.hwm i } { l with pc := .pinLoad i }
  | pinLoad {idx : ℕ} {b : Bool} : l.pc = .pinLoad idx →
      StepTo d l (.run b) d { l with pc := .pinStore idx d.epoch }
  | pinStore {idx e : ℕ} {b : Bool} : l.pc = .pinStore idx e →
      StepTo d l (.run b) (d.setSlot idx e) { l with guards := l.guards + 1, pc := .idle }
  | retireLoad {g : G} {b : Bool} : l.pc = .retireLoad g →
      StepTo d l (.run b)
        { d with recs := d.recs ++ [{ garbage := g, epoch := d.epoch, next := none }] }
        { l with pc := .retireHead d.recs.length (d.epoch % nBags) }
  | retireHead {r bag : ℕ} {b : Bool} : l.pc = .retireHead r bag →
      StepTo d l (.run b) (d.setNext r (d.bags bag))
        { l with pc := .retireCas r bag (d.bags bag) }
  | retireCas {r bag : ℕ} {head : Option ℕ} {b : Bool} : l.pc = .retireCas r bag head →
      d.bags bag = head →
      StepTo d l (.run b) (d.setBag bag (some r)) { l with pc := .idle }
  | retireLost {r bag : ℕ} {head : Option ℕ} {b : Bool} : l.pc = .retireCas r bag head →
      StepTo d l (.run b) d { l with pc := .retireHead r bag }
  | colEpoch {b : Bool} : l.pc = .colEpoch →
      StepTo d l (.run b) d { l with pc := .colHwm d.epoch }
  | colHwm {g : ℕ} {b : Bool} : l.pc = .colHwm g →
      StepTo d l (.run b) d { l with pc := .colScan g (min d.hwm (nSlots - 1)) 0 }
  | scanStop {g hwm i : ℕ} {b : Bool} : l.pc = .colScan g hwm i →
      Domain.blocks (d.slots i) g = true → StepTo d l (.run b) d { l with pc := .colCur }
  | scanNext {g hwm i : ℕ} {b : Bool} : l.pc = .colScan g hwm i →
      Domain.blocks (d.slots i) g = false → i < hwm →
      StepTo d l (.run b) d { l with pc := .colScan g hwm (i + 1) }
  | scanDone {g hwm i : ℕ} {b : Bool} : l.pc = .colScan g hwm i →
      Domain.blocks (d.slots i) g = false → hwm ≤ i →
      StepTo d l (.run b) d { l with pc := .colCas g }
  | advance {g : ℕ} {b : Bool} : l.pc = .colCas g → d.epoch = g →
      StepTo d l (.run b) { d with epoch := g + 1 } { l with pc := .colCur }
  | advanceLost {g : ℕ} {b : Bool} : l.pc = .colCas g → d.epoch ≠ g →
      StepTo d l (.run b) d { l with pc := .colCur }
  | colCur {b : Bool} : l.pc = .colCur →
      StepTo d l (.run b) d { l with pc := .bagSwap d.epoch 0 }
  | bagSwap {cur bag : ℕ} {b : Bool} : l.pc = .bagSwap cur bag →
      StepTo d l (.run b) (d.setBag bag none)
        { l with pc := .bagWalk cur bag (d.bags bag) none }
  | walkFree {cur bag r : ℕ} {keep : Option ℕ} {b : Bool} :
      l.pc = .bagWalk cur bag (some r) keep → d.eligible r cur →
      StepTo d l (.run b) { d with dropped := d.dropped ++ [r] }
        { l with pc := .bagWalk cur bag (d.nextOf r) keep }
  | walkKeep {cur bag r : ℕ} {keep : Option ℕ} {b : Bool} :
      l.pc = .bagWalk cur bag (some r) keep → ¬ d.eligible r cur →
      StepTo d l (.run b) (d.setNext r keep)
        { l with pc := .bagWalk cur bag (d.nextOf r) (some r) }
  | walkEnd {cur bag : ℕ} {keep : Option ℕ} {b : Bool} : l.pc = .bagWalk cur bag none keep →
      StepTo d l (.run b) d { l with pc := repush cur bag d keep }
  | keepHead {cur bag n : ℕ} {rest : Option ℕ} {b : Bool} : l.pc = .keepHead cur bag n rest →
      StepTo d l (.run b) (d.setNext n (d.bags bag))
        { l with pc := .keepCas cur bag n rest (d.bags bag) }
  | keepCas {cur bag n : ℕ} {rest head : Option ℕ} {b : Bool} :
      l.pc = .keepCas cur bag n rest head → d.bags bag = head →
      StepTo d l (.run b) (d.setBag bag (some n)) { l with pc := repush cur bag d rest }
  | keepLost {cur bag n : ℕ} {rest head : Option ℕ} {b : Bool} :
      l.pc = .keepCas cur bag n rest head →
      StepTo d l (.run b) d { l with pc := .keepHead cur bag n rest }

theorem stepTo_of_run {d d' : Domain G} {l l' : Local G} {b : Bool}
    (h : stepRun d l b = some (d', l')) : StepTo d l (.run b) d' l' := by
  -- one rule a program point; a point with a test or a compare-exchange has two
  cases hpc : l.pc with
  | idle | exhausted => simp [stepRun, hpc] at h
  | probe i =>
      simp only [stepRun, hpc] at h
      split at h
      · rename_i hlt
        split at h <;> rename_i hf <;> cases h
        · exact .probeFree hpc hlt hf
        · exact .probeTaken hpc hlt hf
      · rename_i hge
        cases h
        exact .probeNone hpc (Nat.le_of_not_lt hge)
  | claim i =>
      simp only [stepRun, hpc] at h
      split at h <;> rename_i hf <;> cases h
      · exact .claim hpc hf
      · exact .claimLost hpc hf
  | raiseHwm i => simp only [stepRun, hpc] at h; cases h; exact .raiseHwm hpc
  | pinLoad idx => simp only [stepRun, hpc] at h; cases h; exact .pinLoad hpc
  | pinStore idx e => simp only [stepRun, hpc] at h; cases h; exact .pinStore hpc
  | retireLoad g => simp only [stepRun, hpc] at h; cases h; exact .retireLoad hpc
  | retireHead r bag => simp only [stepRun, hpc] at h; cases h; exact .retireHead hpc
  | retireCas r bag head =>
      simp only [stepRun, hpc] at h
      split at h <;> rename_i hb <;> cases h
      · exact .retireCas hpc hb.1
      · exact .retireLost hpc
  | colEpoch => simp only [stepRun, hpc] at h; cases h; exact .colEpoch hpc
  | colHwm g => simp only [stepRun, hpc] at h; cases h; exact .colHwm hpc
  | colScan g hwm i =>
      simp only [stepRun, hpc] at h
      split at h <;> rename_i hb <;> cases h
      · exact .scanStop hpc hb
      · unfold afterScan
        split
        · exact .scanNext hpc (by simpa using hb) ‹_›
        · exact .scanDone hpc (by simpa using hb) (Nat.le_of_not_lt ‹_›)
  | colCas g =>
      simp only [stepRun, hpc] at h
      split at h <;> rename_i he <;> cases h
      · exact .advance hpc he
      · exact .advanceLost hpc he
  | colCur => simp only [stepRun, hpc] at h; cases h; exact .colCur hpc
  | bagSwap cur bag => simp only [stepRun, hpc] at h; cases h; exact .bagSwap hpc
  | bagWalk cur bag node keep =>
      cases node with
      | none => simp only [stepRun, hpc] at h; cases h; exact .walkEnd hpc
      | some r =>
          simp only [stepRun, hpc] at h
          split at h <;> rename_i he <;> cases h
          · exact .walkFree hpc he
          · exact .walkKeep hpc he
  | keepHead cur bag n rest => simp only [stepRun, hpc] at h; cases h; exact .keepHead hpc
  | keepCas cur bag n rest head =>
      simp only [stepRun, hpc] at h
      split at h <;> rename_i hb <;> cases h
      · exact .keepCas hpc hb.1
      · exact .keepLost hpc

/-- Every step is one of the listed ones. -/
theorem stepTo_of_step {d d' : Domain G} {l l' : Local G} {a : Action G}
    (h : step d l a = some (d', l')) : StepTo d l a d' l' := by
  cases a with
  | run b => exact stepTo_of_run h
  | pin =>
      simp only [step] at h
      split at h
      · rename_i hpc
        cases h
        cases hs : l.slot with
        | none => simpa only [localSlot, hs] using StepTo.pinFirst hpc hs
        | some i => simpa only [localSlot, hs] using StepTo.pinAgain hpc hs
      · cases h
  | retire g =>
      simp only [step] at h
      split at h <;> cases h
      exact .retire ‹_›
  | collect =>
      simp only [step] at h
      split at h <;> cases h
      exact .collect ‹_›
  | unpin =>
      simp only [step] at h
      split at h
      · rename_i idx hpc hs
        split at h <;> cases h
        refine .unpin hpc hs ‹_› ?_
        split
        · exact .inl rfl
        · exact .inr rfl
      · cases h

/-- The participants of the domain. -/
def threads (G : Type) : Threads (Domain G) (Local G) (Action G) where
  mem := .new G
  loc := .new G
  step := step

end ZeroKv.Ebr
