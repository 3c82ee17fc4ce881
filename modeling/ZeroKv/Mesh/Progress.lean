/-
# ZeroKv.Mesh.Progress — the running service never deadlocks.

A worker waits in two places: for room in a command queue, serving its inboxes and collecting replies
meanwhile, and for room in a reply queue, collecting replies only.  A full command queue is an inbox of
its reader, and a full reply queue is a queue of replies for its reader.  So whoever has replies to
collect gets to them from everywhere; whoever has commands to serve gets to them unless it waits for
room for a reply, and then somebody has replies to collect.  As long as a request is somewhere in the
service, some worker therefore finds something to do.
-/
import ZeroKv.Mesh.Linear
import ZeroKv.Mesh.Solo

namespace ZeroKv.Mesh.Service

open Relation (ReflTransGen)

variable {τ : Type} {n : ℕ}

/-- The client has a request that is not yet on an ingress. -/
def ClientPc.pushing : ClientPc n → Bool
  | .push _ _ | .cas _ _ _ => true
  | .idle | .wait _ | .take _ => false

/-- The worker is on its way out. -/
def Pc.closing : Pc n → Bool
  | .loadHead | .exited => true
  | _ => false

/-- The worker that has to act on what is at a place. -/
def Place.worker : Place n → Fin n
  | .queued a | .out a | .ins a | .ans a | .hand a | .ready a | .filling a => a
  | .cmd _ b => b
  | .sent _ a => a

variable [NeZero n] {cap : ℕ} {s s' : State τ n} {loc : ℕ → Loc n} {stack chain : Fin n → List ℕ}
  {i : Fin n}

/-- Worker `i` finds something to do: turns of its loops that find nothing, and then a step that takes
requests off the ingress, serves one, pops a command or a reply, pushes to a queue with room, or
fulfils a request. -/
def Progresses (cap : ℕ) (s : State τ n) (i : Fin n) : Prop :=
  ∃ pc, ReflTransGen (Scan cap s i) (s.workers i).pc pc ∧ Busy cap s i pc

/-! ## Looking for work -/

theorem scans_view {pc pc' : Pc n} (h : ReflTransGen (Scan cap s i) pc pc') : pc'.view = pc.view := by
  induction h with
  | refl => rfl
  | tail _ hst ih => rw [hst.view, ih]

theorem Act.not_closing (h : Act cap s i s') : (s'.workers i).pc.closing = false := by
  cases h with
  | @fulfillDone c => cases c <;> simp [State.goto, FulfillCaller.resume, Pc.closing]
  | @walk id => cases hx : s.reqs.nextOf id <;> simp [State.goto, walkFrom, Pc.closing]
  | _ => simp [State.goto, State.setCmd, State.setReply, Pc.closing]

theorem Scan.closing {pc pc' : Pc n} (h : Scan cap s i pc pc') (hc : pc'.closing = true) :
    pc.closing = true ∨ s.stop = true := by
  cases h with
  | stopSeen hstop => exact .inr hstop
  | exit => exact .inl rfl
  | @collectEnd c =>
      rcases c with ⟨c | _, _⟩ | _ <;> cases hc
  | _ => cases hc

/-- Nobody leaves and nobody is about to. -/
structure Open (s : State τ n) : Prop where
  stop : s.stop = false
  pc : ∀ i, (s.workers i).pc.closing = false

namespace Open

/-- Before `stop` no worker gets to its exit. -/
theorem not_exits (h : Open s) : ¬ ReflTransGen (Scan cap s i) (s.workers i).pc .exited := by
  intro hsc
  have hclosing : ∀ pc, ReflTransGen (Scan cap s i) (s.workers i).pc pc → pc.closing = false := by
    intro pc hsc
    induction hsc with
    | refl => exact h.pc i
    | tail _ hst ih =>
        by_contra hc
        rcases hst.closing (by simpa using hc) with hc | hstop
        · rw [ih] at hc
          cases hc
        · rw [h.stop] at hstop
          cases hstop
  exact absurd (hclosing _ hsc) (by simp [Pc.closing])

/-- A worker with a reply to collect gets to it. -/
theorem progresses_of_reply (h : Open s) {b : Fin n} (hq : s.reply (b, i) ≠ []) : Progresses cap s i := by
  obtain ⟨pc, hsc, hb | hst⟩ := gets_stalled cap s i (s.workers i).pc
  · exact ⟨pc, hsc, hb⟩
  · cases hst with
    | forward _ _ hrep | reply _ hrep | idle _ hrep => exact absurd (hrep b) hq
    | exited => exact absurd hsc h.not_exits

/-- A worker with a command to serve gets to it, or the worker it replies to has a reply to collect. -/
theorem progresses_of_cmd (h : Open s) (hcap : 0 < cap) {b : Fin n} (hq : s.cmd (b, i) ≠ []) :
    ∃ j, Progresses cap s j := by
  obtain ⟨pc, hsc, hb | hst⟩ := gets_stalled cap s i (s.workers i).pc
  · exact ⟨i, pc, hsc, hb⟩
  · cases hst with
    | forward _ hcmd | idle hcmd => exact absurd (hcmd b) hq
    | reply hfull =>
        exact ⟨_, h.progresses_of_reply (List.length_pos_iff.mp (hcap.trans_le hfull))⟩
    | exited => exact absurd hsc h.not_exits

end Open

/-- A worker with nothing in its hands and nothing to find has nothing to act on. -/
theorem Owned.nothing {id : ℕ} {p : Place n} (h : Owned s.snap loc stack chain)
    (hview : (s.workers i).pc.view = {}) (hcmd : ∀ b, s.cmd (b, i) = [])
    (hrep : ∀ b, s.reply (b, i) = []) (hin : s.ingress i = none) (hp : (loc id).place = some p) :
    p.worker ≠ i := by
  rintro rfl
  have hst : stack p.worker = [] := by
    have := h.stacked p.worker
    rwa [show s.snap.ingress p.worker = none from hin, linked_none] at this
  have hch : chain p.worker = [] := by
    have := h.chained p.worker
    rwa [show s.snap.view p.worker = {} from hview, linked_none] at this
  have hmem := h.held.mem hp
  have hempty : s.snap.listAt stack chain p = [] := by
    cases p with
    | queued a => simp_all [Snap.listAt, State.snap, Place.worker]
    | cmd a b => simp_all [Snap.listAt, State.snap, Place.worker]
    | sent b a => simp_all [Snap.listAt, State.snap, Place.worker]
    | _ => simp_all [Snap.listAt, State.snap, Place.worker]
  rw [Snap.at, hempty] at hmem
  exact absurd hmem (Multiset.notMem_zero _)

/-- While a request is somewhere in the service, some worker finds something to do. -/
theorem Owned.progresses (h : Owned s.snap loc stack chain) (hopen : Open s) (hcap : 0 < cap) {id : ℕ}
    (hp : (loc id).place ≠ none) : ∃ j, Progresses cap s j := by
  obtain ⟨p, hp⟩ := Option.ne_none_iff_exists'.mp hp
  obtain ⟨pc, hsc, hb | hst⟩ := gets_stalled cap s p.worker (s.workers p.worker).pc
  · exact ⟨_, pc, hsc, hb⟩
  · have hview : (s.workers p.worker).pc.view = pc.view := (scans_view hsc).symm
    cases hst with
    | forward hfull => exact hopen.progresses_of_cmd hcap (List.length_pos_iff.mp (hcap.trans_le hfull))
    | reply hfull =>
        exact ⟨_, hopen.progresses_of_reply (List.length_pos_iff.mp (hcap.trans_le hfull))⟩
    | idle hcmd hrep hin => exact absurd rfl (h.nothing hview hcmd hrep hin hp)
    | exited => exact absurd hsc hopen.not_exits

/-! ## No deadlock -/

section

variable [DecidableEq τ]

/-- While the service runs nobody leaves. -/
theorem open_of_reachable (hs : ((machine τ n cap).restrict Running).Reachable s) : Open s := by
  refine hs.invariant ?_ ?_
  · rintro s rfl
    exact ⟨rfl, fun _ => rfl⟩
  · rintro s l s' hr h ⟨hrun, hst⟩
    rcases l with ⟨t, a⟩ | i | _
    · cases clientStep_of_step hst <;> exact ⟨h.stop, h.pc⟩
    · cases workerStep_of_step hst with
      | @scan pc hsc =>
          refine ⟨h.stop, fun j => ?_⟩
          rcases eq_or_ne j i with rfl | hne
          · rw [goto_pc_self]
            by_contra hc
            rcases hsc.closing (by simpa using hc) with hc | hstop
            · rw [h.pc j] at hc
              cases hc
            · rw [h.stop] at hstop
              cases hstop
          · rw [goto_workers_of_ne s hne]
            exact h.pc j
      | act hact =>
          obtain ⟨loc, stack, chain, -, ho, -⟩ := inv_of_reachable hr
          have hf : Frame s s' i := (ho.act (fun _ _ => hrun i) hact).1
          refine ⟨hf.stop.trans h.stop, fun j => ?_⟩
          rcases eq_or_ne j i with rfl | hne
          · exact hact.not_closing
          · rw [hf.others j hne]
            exact h.pc j
    · exact hrun.elim

/-- **The running service never deadlocks.**  As long as no worker has run out of tokens: a request that
is not fulfilled is still being pushed by its client, or some worker finds something to do. -/
theorem service_never_deadlocks (hcap : 0 < cap)
    (hs : ((machine τ n cap).restrict Running).Reachable s) {id : ℕ} (hid : id < s.reqs.length)
    (hdone : s.reqs.doneOf id = false) :
    (∃ t, (s.clients t).request = some id ∧ (s.clients t).pushing = true) ∨
      ∃ i, Progresses cap s i := by
  obtain ⟨loc, stack, chain, -, ho, -⟩ := inv_of_reachable hs
  by_cases hp : (loc id).place = none
  · -- a request that is nowhere in the service has not reached it yet
    left
    have hloc : loc id = .pushing := by
      cases hl : loc id with
      | pushing => rfl
      | unborn => exact absurd ((ho.ok id).born.mp hl) (Nat.not_le_of_lt hid)
      | done v =>
          have := (ho.ok id).done.mpr ⟨v, hl⟩
          rw [show s.snap.reqs.doneOf id = false from hdone] at this
          cases this
      | _ => rw [hl] at hp; cases hp
    obtain ⟨t, ht⟩ := ho.pushing id hloc
    have hclient := ho.client t
    have ht' : (s.clients t).request = some id := ht
    have hclient : ClientOk s.snap loc (s.clients t) := hclient
    refine ⟨t, ht', ?_⟩
    cases hpc : s.clients t with
    | idle => rw [hpc] at ht'; cases ht'
    | push | cas => rfl
    | wait j =>
        rw [hpc] at ht' hclient
        obtain rfl : j = id := Option.some.inj ht'
        exact absurd hloc hclient.1.2
    | take j =>
        rw [hpc] at ht' hclient
        obtain rfl : j = id := Option.some.inj ht'
        rw [show loc j = .done _ from hclient] at hloc
        cases hloc
  · exact .inr (ho.progresses (open_of_reachable hs) hcap hp)

end

/-- Each of the two workers accepts two lookups of keys of the other one, over queues with room for one
command.  Both forward the first lookup and stand before the second, with the queue full. -/
def fullSchedule : List (Label (Bool × Bool) 2) :=
  let call (t : Bool × Bool) (key : Bytes) (accept : Fin 2) : List (Label (Bool × Bool) 2) :=
    .client t (.getRoundRobin key accept) :: List.replicate 2 (.client t (.run true))
  call (false, false) [0] 0 ++ call (false, true) [0] 0 ++
    call (true, false) [1] 1 ++ call (true, true) [1] 1 ++
    List.replicate 7 (.worker 0) ++ List.replicate 7 (.worker 1) ++
    List.replicate 5 (.worker 0) ++ List.replicate 5 (.worker 1)

def fullEnd : State (Bool × Bool) 2 :=
  (Machine.runFn (fun s l => if Running s l then step 1 s l else none) (.new (Bool × Bool) 2)
    fullSchedule).getD (.new (Bool × Bool) 2)

theorem service_never_deadlocks_sample :
    ((fullEnd.cmd (0, 1)).length = 1 ∧ (fullEnd.cmd (1, 0)).length = 1) ∧ ∃ i, Progresses 1 fullEnd i := by
  have hs : ((machine (Bool × Bool) 2 1).restrict Running).Reachable fullEnd :=
    Machine.reachable_restrict_of_runFn
      (show Machine.runFn _ _ fullSchedule = some fullEnd from rfl)
  have hid : 3 < fullEnd.reqs.length := by decide
  refine ⟨⟨rfl, rfl⟩, ?_⟩
  rcases service_never_deadlocks (by decide) hs hid rfl with ⟨t, -, ht⟩ | h
  · rcases t with ⟨_ | _, _ | _⟩ <;> exact absurd ht (by decide)
  · exact h

end ZeroKv.Mesh.Service
