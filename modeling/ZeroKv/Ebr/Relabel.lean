/-
# ZeroKv.Ebr.Relabel — the domain does not look into its records.

What `retire` is given, a pointer and a drop function, is carried along until the record is dropped and read
by nobody before that.  So a run of the domain stays one when the contents of all records are renamed.
-/
import ZeroKv.Ebr.Alone

namespace ZeroKv.Ebr

variable {G H : Type} (f : G → H)

def Retired.map (x : Retired G) : Retired H where
  garbage := f x.garbage
  epoch := x.epoch
  next := x.next

def Domain.map (d : Domain G) : Domain H where
  epoch := d.epoch
  slots := d.slots
  bags := d.bags
  hwm := d.hwm
  recs := d.recs.map (Retired.map f)
  dropped := d.dropped

def Pc.map : Pc G → Pc H
  | .idle => .idle
  | .probe i => .probe i
  | .claim i => .claim i
  | .raiseHwm i => .raiseHwm i
  | .exhausted => .exhausted
  | .pinLoad idx => .pinLoad idx
  | .pinStore idx e => .pinStore idx e
  | .retireLoad g => .retireLoad (f g)
  | .retireHead r bag => .retireHead r bag
  | .retireCas r bag head => .retireCas r bag head
  | .colEpoch => .colEpoch
  | .colHwm g => .colHwm g
  | .colScan g hwm i => .colScan g hwm i
  | .colCas g => .colCas g
  | .colCur => .colCur
  | .bagSwap cur b => .bagSwap cur b
  | .bagWalk cur b node keep => .bagWalk cur b node keep
  | .keepHead cur b n rest => .keepHead cur b n rest
  | .keepCas cur b n rest head => .keepCas cur b n rest head

def Local.map (l : Local G) : Local H where
  slot := l.slot
  tick := l.tick
  guards := l.guards
  pc := l.pc.map f

def Action.map : Action G → Action H
  | .pin => .pin
  | .unpin => .unpin
  | .retire g => .retire (f g)
  | .collect => .collect
  | .run strong => .run strong

variable {f} {d : Domain G} {l : Local G}

@[simp] theorem Pc.map_eq_idle {pc : Pc G} : pc.map f = .idle ↔ pc = .idle := by
  cases pc <;> simp [map]

@[simp] theorem Domain.epoch_map : (d.map f).epoch = d.epoch := rfl
@[simp] theorem Domain.slots_map : (d.map f).slots = d.slots := rfl
@[simp] theorem Domain.bags_map : (d.map f).bags = d.bags := rfl
@[simp] theorem Domain.dropped_map : (d.map f).dropped = d.dropped := rfl
@[simp] theorem Domain.setBag_map (b : ℕ) (h : Option ℕ) :
    (d.map f).setBag b h = (d.setBag b h).map f := rfl

@[simp] theorem Domain.nextOf_map (r : ℕ) : (d.map f).nextOf r = d.nextOf r := by
  simp only [nextOf, map, List.getElem?_map]
  cases d.recs[r]? <;> rfl

@[simp] theorem Domain.tagOf_map (r : ℕ) : (d.map f).tagOf r = d.tagOf r := by
  simp only [tagOf, map, List.getElem?_map]
  cases d.recs[r]? <;> rfl

@[simp] theorem Domain.garbageOf_map (r : ℕ) : (d.map f).garbageOf r = (d.garbageOf r).map f := by
  simp only [garbageOf, map, List.getElem?_map]
  cases d.recs[r]? <;> rfl

@[simp] theorem Domain.eligible_map (r cur : ℕ) : (d.map f).eligible r cur ↔ d.eligible r cur := by
  rw [eligible, eligible, tagOf_map]

@[simp] theorem Domain.setNext_map (r : ℕ) (n : Option ℕ) :
    (d.map f).setNext r n = (d.setNext r n).map f := by
  simp only [setNext, map, mk.injEq, true_and, and_true]
  refine List.ext_getElem? fun q => ?_
  simp only [List.getElem?_modify, List.getElem?_map]
  cases d.recs[q]? with
  | none => rfl
  | some x => by_cases hq : r = q <;> simp [hq, Retired.map]

theorem repush_map (cur b : ℕ) (keep : Option ℕ) :
    repush cur b (d.map f) keep = (repush cur b d keep).map f := by
  cases keep with
  | none =>
      simp only [repush, nextBag]
      split <;> rfl
  | some n => simp [repush, Pc.map]

theorem stepRun_map (strong : Bool) :
    stepRun (d.map f) (l.map f) strong =
      (stepRun d l strong).map (Prod.map (Domain.map f) (Local.map f)) := by
  obtain ⟨slot, tick, guards, pc⟩ := l
  cases pc with
  | probe i =>
      by_cases hi : i < nSlots <;> by_cases hf : d.slots i = free <;>
        simp [stepRun, Local.map, Pc.map, Domain.map, hi, hf]
  | claim i =>
      by_cases hf : d.slots i = free <;>
        simp [stepRun, Local.map, Pc.map, Domain.map, Domain.setSlot, hf]
  | retireLoad g => simp [stepRun, Local.map, Pc.map, Domain.map, Retired.map]
  | retireHead r bag => simp [stepRun, Local.map, Pc.map]
  | retireCas r bag head =>
      by_cases hb : d.bags bag = head ∧ strong = true <;> simp [stepRun, Local.map, Pc.map, hb]
  | colScan g hwm i =>
      by_cases hb : Domain.blocks (d.slots i) g <;> by_cases hi : i < hwm <;>
        simp [stepRun, Local.map, Pc.map, afterScan, hb, hi]
  | colCas g =>
      by_cases he : d.epoch = g <;> simp [stepRun, Local.map, Pc.map, Domain.map, he]
  | bagWalk cur b node keep =>
      cases node with
      | none => simp [stepRun, Local.map, Pc.map, repush_map]
      | some r =>
          by_cases he : d.eligible r cur <;> simp [stepRun, Local.map, Pc.map, he]
          rfl
  | keepHead cur b n rest => simp [stepRun, Local.map, Pc.map]
  | keepCas cur b n rest head =>
      by_cases hb : d.bags b = head ∧ strong = true
      · simp only [stepRun, Local.map, Pc.map, Domain.bags_map, hb, and_self, if_true, Domain.setBag_map,
          repush_map, Option.map_some, Prod.map_apply]
      · simp [stepRun, Local.map, Pc.map, hb]
  | _ => rfl

/-- **A step of the domain after the records are renamed.** -/
theorem step_map (a : Action G) :
    step (d.map f) (l.map f) (a.map f) = (step d l a).map (Prod.map (Domain.map f) (Local.map f)) := by
  cases a with
  | run strong => exact stepRun_map strong
  | pin =>
      obtain ⟨slot, tick, guards, pc⟩ := l
      cases slot <;> cases pc <;> rfl
  | retire g | collect =>
      obtain ⟨slot, tick, guards, pc⟩ := l
      cases pc <;> rfl
  | unpin =>
      obtain ⟨slot, tick, guards, pc⟩ := l
      cases slot <;> cases pc <;> try rfl
      by_cases hg : 0 < guards
      · -- the amortised decision to collect reads the counter only
        by_cases ht : (tick + 1) % 2 ^ 32 % collectInterval = 0 <;>
          simp only [step, stepUnpin, Action.map, Local.map, Pc.map, hg, ht, if_true, if_false,
            Option.map_some, Prod.map_apply] <;> rfl
      · simp [step, Action.map, Local.map, Pc.map, hg]

end ZeroKv.Ebr
