/-
# ZeroKv.Mesh.TokenReuse — what happens after `2^48` forwarded gets.

A token is the number of the worker in the bits above the 48th and a counter below them.  The counter is
not bounded: after `2^48` forwarded gets worker 1 makes the token of its first one again.  If that one is
still on its way, its entry in `client_waiters` is overwritten and its client waits for ever, in a service
in which nobody finds anything to do.

The run has a loop of `2^48` round trips, so it is not evaluated: every phase of a round trip is a lemma
about the state it starts from, and the loop is an induction.
-/
import ZeroKv.Mesh.Progress

namespace ZeroKv.Mesh.Service

open Relation (ReflTransGen)

variable {τ : Type} {n : ℕ} [NeZero n] {cap : ℕ} {s s' : State τ n} {i j : Fin n}

/-! ## Turns of the loops that find nothing -/

/-- Inboxes without commands are passed over. -/
theorem scans_pump_to (c : PumpCaller n) (p : Bool) {src stop : ℕ} (hle : src ≤ stop) (hstop : stop ≤ n)
    (hcmd : ∀ b : Fin n, src ≤ b → b < stop → s.cmd (b, i) = []) :
    ReflTransGen (Scan cap s i) (.pump c p src) (.pump c p stop) := by
  induction hle with
  | refl => exact .refl
  | @step stop hle ih =>
      have hlt : stop < n := hstop
      exact (ih hlt.le fun b hb hb' => hcmd b hb (hb'.trans (Nat.lt_succ_self _))).tail
        (.pumpEmpty (j := ⟨stop, hlt⟩) (hcmd ⟨stop, hlt⟩ hle (Nat.lt_succ_self _)))

/-- Empty reply queues are passed over. -/
theorem scans_collect_to (c : CollectCaller n) (p : Bool) {src stop : ℕ} (hle : src ≤ stop)
    (hstop : stop ≤ n) (hrep : ∀ b : Fin n, src ≤ b → b < stop → s.reply (b, i) = []) :
    ReflTransGen (Scan cap s i) (.collect c p src) (.collect c p stop) := by
  induction hle with
  | refl => exact .refl
  | @step stop hle ih =>
      have hlt : stop < n := hstop
      exact (ih hlt.le fun b hb hb' => hrep b hb (hb'.trans (Nat.lt_succ_self _))).tail
        (.collectEmpty (j := ⟨stop, hlt⟩) (hrep ⟨stop, hlt⟩ hle (Nat.lt_succ_self _)))

/-- The rest of a round of `collect_replies` that finds nothing more. -/
theorem scans_collect (c : CollectCaller n) (p : Bool) {src : ℕ} (hsrc : src ≤ n)
    (hrep : ∀ b, s.reply (b, i) = []) :
    ReflTransGen (Scan cap s i) (.collect c p src) (c.resume p) :=
  (scans_collect_to c p hsrc le_rfl fun b _ _ => hrep b).tail (.collectEnd le_rfl)

/-- The rest of a round of the service loop that finds nothing more. -/
theorem scans_loop (p : Bool) (hin : s.ingress i = none) (hstop : s.stop = false) :
    ReflTransGen (Scan cap s i) (.swap p) (.pump .loop false 0) :=
  .tail (.single (.swapNone hin)) (.again (by simp [hstop]))

theorem scans_pump_end (c : PumpCaller n) (p : Bool) {src : ℕ} (hsrc : src ≤ n)
    (hcmd : ∀ b, s.cmd (b, i) = []) :
    ReflTransGen (Scan cap s i) (.pump c p src) (.collect (.pump c p) false 0) :=
  (scans_pump_to c p hsrc le_rfl fun b _ _ => hcmd b).tail (.pumpEnd le_rfl)

/-! ## Phases of a round trip -/

section Phases

variable [DecidableEq τ]

/-- Some steps lead from one state to the other. -/
abbrev Reaches (cap : ℕ) : State τ n → State τ n → Prop :=
  ReflTransGen fun s s' => ∃ l, step cap s l = some s'

theorem Reaches.reachable (h : Reaches cap s s') (hs : (machine τ n cap).Reachable s) :
    (machine τ n cap).Reachable s' := by
  induction h with
  | refl => exact hs
  | tail _ hst ih =>
      obtain ⟨l, hl⟩ := hst
      exact ih.next hl

theorem Reaches.scans {pc pc' : Pc n} (h : ReflTransGen (Scan cap s i) pc pc') :
    Reaches cap (s.goto i pc) (s.goto i pc') := by
  induction h with
  | refl => exact .refl
  | @tail pc pc' _ hst ih =>
      have hst' : Scan cap (s.goto i pc) i ((s.goto i pc).workers i).pc pc' := by
        rw [goto_pc_self]
        exact hst.goto
      exact ih.tail ⟨.worker i, by rw [← goto_goto s i pc pc']; exact step_of_scan hst'⟩

/-- One step of a worker at program point `pc`. -/
theorem Reaches.step {pc : Pc n} (h : stepWorker cap (s.goto i pc) i = some s') :
    Reaches cap (s.goto i pc) s' := .single ⟨.worker i, h⟩

/-- A client asks worker `a`, whose ingress is empty, and waits. -/
theorem reaches_submit (cap : ℕ) {t : τ} (key : Bytes) (a : Fin n) (hpc : s.clients t = .idle)
    (hin : s.ingress a = none) :
    ∃ reqs hist, Reaches cap s
        { s with
          reqs := reqs
          hist := hist
          ingress := Function.update s.ingress a (some s.reqs.length)
          clients := Function.update s.clients t (.wait s.reqs.length) } ∧
      reqs.length = s.reqs.length + 1 ∧ reqs.opOf s.reqs.length = .get key ∧
      reqs.nextOf s.reqs.length = none ∧ reqs.doneOf s.reqs.length = false ∧
      ∀ id < s.reqs.length, reqs.doneOf id = s.reqs.doneOf id := by
  obtain ⟨req, hreq⟩ : ∃ req : Request, req = { op := .get key, next := none, done := false, value := none } :=
    ⟨_, rfl⟩
  obtain ⟨hist, hhist⟩ : ∃ hist, hist = s.hist ++ [.inv s.reqs.length (.get key)] := ⟨_, rfl⟩
  obtain ⟨s₁, hs₁⟩ : ∃ s₁, s₁ = { s.clientGoto t (.push a s.reqs.length) with
      reqs := s.reqs ++ [req]
      hist := hist } := ⟨_, rfl⟩
  have h₁ : step cap s (.client t (.getRoundRobin key a)) = some s₁ := by
    simp [step, stepClient, submitTo, hpc, hs₁, hreq, hhist]
  obtain ⟨s₂, hs₂⟩ : ∃ s₂, s₂ = { s₁.clientGoto t (.cas a s.reqs.length none) with
      reqs := Heap.setNext (s.reqs ++ [req]) s.reqs.length none } := ⟨_, rfl⟩
  have h₂ : step cap s₁ (.client t (.run true)) = some s₂ := by
    simp [step, stepClient, hs₂, hs₁, State.clientGoto, hin]
  refine ⟨Heap.setNext (s.reqs ++ [req]) s.reqs.length none, hist,
    .tail (.tail (.single ⟨_, h₁⟩) ⟨_, h₂⟩) ⟨.client t (.run true), ?_⟩, ?_, ?_, ?_, ?_, ?_⟩
  · simp [step, stepClient, hs₂, hs₁, State.clientGoto, hin]
  · simp
  · rw [Heap.opOf_setNext, Heap.opOf, readField_append_self, hreq]
  · exact Heap.nextOf_setNext_self _ (by simp) none
  · rw [Heap.doneOf_setNext, Heap.doneOf, readField_append_self, hreq]
  · intro id hid
    rw [Heap.doneOf_setNext, Heap.doneOf, readField_append hid.ne]
    rfl

/-- Worker `i` has taken request `id` off its ingress and forwarded it. -/
def State.forwarded (s : State τ n) (i : Fin n) (key : Bytes) (id : ℕ) : State τ n :=
  { s with
    ingress := Function.update s.ingress i none
    cmd := Function.update s.cmd (i, owner n key)
      (s.cmd (i, owner n key) ++ [.get key i (tokenOf i (s.workers i).nextToken)])
    workers := Function.update s.workers i { s.workers i with
      waiters := (tokenOf i (s.workers i).nextToken, id) ::
        (s.workers i).waiters.filter (·.1 ≠ tokenOf i (s.workers i).nextToken)
      nextToken := (s.workers i).nextToken + 1 } }

/-- Worker `j` has answered the get of worker `i`. -/
def State.answered (s : State τ n) (i j : Fin n) (key : Bytes) (token : ℕ) : State τ n :=
  { s with
    cmd := Function.update s.cmd (i, j) []
    reply := Function.update s.reply (j, i) [{ token, val := (s.workers j).shard key }] }

/-- Worker `i` has dropped a reply of worker `j`. -/
def State.dropped (s : State τ n) (i j : Fin n) : State τ n :=
  { s with reply := Function.update s.reply (j, i) [] }

/-- Worker `i` has fulfilled request `id` with the reply of worker `j`. -/
def State.collected (s : State τ n) (i j : Fin n) (r : Reply) (id : ℕ) : State τ n :=
  { s with
    reply := Function.update s.reply (j, i) []
    workers := Function.update s.workers i { s.workers i with
      waiters := (s.workers i).waiters.filter (·.1 ≠ r.token) }
    reqs := (s.reqs.setValue id r.val).setDone id
    fulfilled := s.fulfilled ++ [(id, r.val)] }

/-- Worker `i` takes the only request of its ingress, a get for another worker, and forwards it. -/
theorem reaches_forward {key : Bytes} {id : ℕ} (hpc : (s.workers i).pc = .pump .loop false 0)
    (hcmd : ∀ b, s.cmd (b, i) = []) (hrep : ∀ b, s.reply (b, i) = []) (hin : s.ingress i = some id)
    (hnext : s.reqs.nextOf id = none) (hop : s.reqs.opOf id = .get key)
    (hown : owner n key ≠ i) (hcap : (s.cmd (i, owner n key)).length < cap) :
    Reaches cap s (s.forwarded i key id) := by
  have hscan : ReflTransGen (Scan cap s i) (.pump .loop false 0) (.swap false) :=
    (scans_pump_end .loop false (Nat.zero_le n) hcmd).trans
      (scans_collect (.pump .loop false) false (Nat.zero_le n) hrep)
  have h₁ := Reaches.scans hscan
  rw [← hpc, goto_self] at h₁
  refine h₁.trans ?_
  -- take the request off the ingress and look at it
  obtain ⟨s₁, hs₁⟩ : ∃ s₁, s₁ = { s with ingress := Function.update s.ingress i none } := ⟨_, rfl⟩
  have h₂ : stepWorker cap (s.goto i (.swap false)) i = some (s₁.goto i (.walk id [])) := by
    simp [stepWorker, hs₁, State.goto, hin]
  have h₃ : stepWorker cap (s₁.goto i (.walk id [])) i = some (s₁.goto i (.serve [id])) := by
    simp [stepWorker, hs₁, State.goto, hnext, walkFrom]
  -- register its token
  obtain ⟨s₂, hs₂⟩ : ∃ s₂, s₂ = { s₁ with
      workers := Function.update s₁.workers i { s.workers i with
          waiters := (tokenOf i (s.workers i).nextToken, id) ::
            (s.workers i).waiters.filter (·.1 ≠ tokenOf i (s.workers i).nextToken)
          nextToken := (s.workers i).nextToken + 1 } } := ⟨_, rfl⟩
  have h₄ : stepWorker cap (s₁.goto i (.serve [id])) i =
      some (s₂.goto i (.forward (.get key i (tokenOf i (s.workers i).nextToken)) none [])) := by
    simp [stepWorker, hs₂, hs₁, State.goto, serveRequest, hop, hown]
  -- push the command, and go round
  obtain ⟨s₃, hs₃⟩ : ∃ s₃, s₃ = s₂.setCmd (i, owner n key)
      (s.cmd (i, owner n key) ++ [.get key i (tokenOf i (s.workers i).nextToken)]) := ⟨_, rfl⟩
  have h₅ : stepWorker cap (s₂.goto i (.forward (.get key i (tokenOf i (s.workers i).nextToken)) none []))
      i = some (s₃.goto i (.serve [])) := by
    simp [stepWorker, hs₃, hs₂, hs₁, State.goto, State.setCmd, Command.key, hcap]
  have h₆ : ReflTransGen (Scan cap s₃ i) (.serve []) (.pump .loop false 0) :=
    .tail (.single .serveNil) (.again (by simp))
  have hend : s₃.goto i (.pump .loop false 0) = s₃ := by
    have : (s₃.workers i).pc = .pump .loop false 0 := by simp [hs₃, hs₂, State.setCmd, hpc]
    rw [← this, goto_self]
  have hrun := ((((Reaches.step h₂).trans (Reaches.step h₃)).trans (Reaches.step h₄)).trans
    (Reaches.step h₅)).trans (Reaches.scans h₆)
  rw [hend, hs₃, hs₂, hs₁] at hrun
  exact hrun

/-- Worker `j` answers the only command in its inboxes, a get from worker `i`. -/
theorem reaches_answer {key : Bytes} {token : ℕ} (hpc : (s.workers j).pc = .pump .loop false 0)
    (hcmd : ∀ b, b ≠ i → s.cmd (b, j) = []) (hq : s.cmd (i, j) = [.get key i token])
    (hrep : ∀ b, s.reply (b, j) = []) (hstop : s.stop = false) (hin : s.ingress j = none)
    (hempty : s.reply (j, i) = []) (hne : i ≠ j) (hcap : 0 < cap) :
    Reaches cap s (s.answered i j key token) := by
  have hscan : ReflTransGen (Scan cap s j) (.pump .loop false 0) (.pump .loop false i) :=
    scans_pump_to .loop false (Nat.zero_le _) i.isLt.le fun b _ hb =>
      hcmd b fun h => absurd hb (by rw [h]; exact lt_irrefl _)
  have h₁ := Reaches.scans hscan
  rw [← hpc, goto_self] at h₁
  refine h₁.trans ?_
  obtain ⟨s₁, hs₁⟩ : ∃ s₁, s₁ = s.setCmd (i, j) [] := ⟨_, rfl⟩
  have h₂ : stepWorker cap (s.goto j (.pump .loop false i)) j =
      some (s₁.goto j (.answer .loop i key i token)) := by
    simp [stepWorker, hs₁, State.goto, State.setCmd, hq]
  have h₃ : stepWorker cap (s₁.goto j (.answer .loop i key i token)) j =
      some (s₁.goto j (.reply .loop i i { token, val := (s.workers j).shard key })) := by
    simp [stepWorker, hs₁, State.goto, State.setCmd]
  obtain ⟨s₂, hs₂⟩ : ∃ s₂, s₂ = s₁.setReply (j, i) [{ token, val := (s.workers j).shard key }] :=
    ⟨_, rfl⟩
  have h₄ : stepWorker cap (s₁.goto j (.reply .loop i i { token, val := (s.workers j).shard key })) j =
      some (s₂.goto j (.pump .loop true i)) := by
    simp [stepWorker, hs₂, hs₁, State.goto, State.setCmd, State.setReply, hempty, hcap]
  -- nothing is left: finish the round
  have hcmd' : ∀ b, s₂.cmd (b, j) = [] := by
    intro b
    rcases eq_or_ne b i with rfl | hb
    · simp [hs₂, hs₁, State.setCmd, State.setReply]
    · simp [hs₂, hs₁, State.setCmd, State.setReply, hb, hcmd b hb]
  have hrep' : ∀ b, s₂.reply (b, j) = [] := by
    intro b
    simp [hs₂, hs₁, State.setCmd, State.setReply, hne.symm, hrep]
  have h₅ : ReflTransGen (Scan cap s₂ j) (.pump .loop true i) (.pump .loop false 0) :=
    ((scans_pump_end .loop true i.isLt.le hcmd').trans
      (scans_collect (.pump .loop true) false (Nat.zero_le n) hrep')).trans
      (scans_loop true (by simpa [hs₂, hs₁, State.setCmd, State.setReply] using hin)
        (by simpa [hs₂, hs₁, State.setCmd, State.setReply] using hstop))
  have hend : s₂.goto j (.pump .loop false 0) = s₂ := by
    have : (s₂.workers j).pc = .pump .loop false 0 := by
      simpa [hs₂, hs₁, State.setCmd, State.setReply] using hpc
    rw [← this, goto_self]
  have hrun := (((Reaches.step h₂).trans (Reaches.step h₃)).trans (Reaches.step h₄)).trans (Reaches.scans h₅)
  rw [hend, hs₂, hs₁] at hrun
  exact hrun

section Collect

variable {r : Reply} (hpc : (s.workers i).pc = .pump .loop false 0) (hcmd : ∀ b, s.cmd (b, i) = [])
  (hrep : ∀ b, b ≠ j → s.reply (b, i) = []) (hq : s.reply (j, i) = [r]) (hstop : s.stop = false)
  (hin : s.ingress i = none)

include hpc hcmd hrep in
/-- Worker `i` gets to the only reply there is. -/
theorem reaches_collect : Reaches cap s (s.goto i (.collect (.pump .loop false) false j)) := by
  have hscan : ReflTransGen (Scan cap s i) (.pump .loop false 0) (.collect (.pump .loop false) false j) :=
    (scans_pump_end .loop false (Nat.zero_le n) hcmd).trans
      (scans_collect_to _ false (Nat.zero_le _) j.isLt.le fun b _ hb =>
        hrep b fun h => absurd hb (by rw [h]; exact lt_irrefl _))
  have h := Reaches.scans hscan
  rwa [← hpc, goto_self] at h

/-- The round ends without another reply. -/
theorem reaches_round {s : State τ n} (hpc : (s.workers i).pc = .pump .loop false 0)
    (hrep : ∀ b, s.reply (b, i) = []) (hstop : s.stop = false) (hin : s.ingress i = none) :
    Reaches cap (s.goto i (.collect (.pump .loop false) true j)) s := by
  have hscan : ReflTransGen (Scan cap s i) (.collect (.pump .loop false) true j) (.pump .loop false 0) :=
    (scans_collect _ true j.isLt.le hrep).trans (scans_loop true hin hstop)
  have h := Reaches.scans hscan
  rwa [← hpc, goto_self] at h

omit [NeZero n] [DecidableEq τ] in
include hrep in
theorem reply_popped (b : Fin n) : Function.update s.reply (j, i) [] (b, i) = [] := by
  rcases eq_or_ne b j with rfl | hb
  · rw [Function.update_self]
  · rw [Function.update_of_ne (by simpa using hb), hrep b hb]

include hpc hcmd hrep hq hstop hin in
/-- Nobody waits for the reply. -/
theorem reaches_collect_miss (hw : (s.workers i).waiters.lookup r.token = none) :
    Reaches cap s (s.dropped i j) := by
  refine (reaches_collect hpc hcmd hrep).trans ?_
  obtain ⟨s₁, hs₁⟩ : ∃ s₁, s₁ = s.setReply (j, i) [] := ⟨_, rfl⟩
  have h₁ : stepWorker cap (s.goto i (.collect (.pump .loop false) false j)) i =
      some (s₁.goto i (.collect (.pump .loop false) true j)) := by
    simp [stepWorker, hs₁, State.goto, State.setReply, hq, matchReply, hw]
  have h₂ : Reaches cap (s₁.goto i (.collect (.pump .loop false) true j)) s₁ := by
    rw [hs₁]
    exact reaches_round hpc (reply_popped hrep) hstop hin
  have hrun := (Reaches.step h₁).trans h₂
  rwa [hs₁] at hrun

include hpc hcmd hrep hq hstop hin in
/-- The request that waits for the reply is fulfilled. -/
theorem reaches_collect_hit {id : ℕ} (hw : (s.workers i).waiters.lookup r.token = some id) :
    Reaches cap s (s.collected i j r id) := by
  refine (reaches_collect hpc hcmd hrep).trans ?_
  obtain ⟨s₁, hs₁⟩ : ∃ s₁, s₁ = { s.setReply (j, i) [] with
      workers := Function.update s.workers i { s.workers i with
        waiters := (s.workers i).waiters.filter (·.1 ≠ r.token) } } := ⟨_, rfl⟩
  have h₁ : stepWorker cap (s.goto i (.collect (.pump .loop false) false j)) i =
      some (s₁.goto i (.fulfillValue (.collect (.pump .loop false) j) id r.val)) := by
    simp [stepWorker, hs₁, State.goto, State.setReply, hq, matchReply, hw]
  obtain ⟨s₂, hs₂⟩ : ∃ s₂, s₂ = { s₁ with
      reqs := s.reqs.setValue id r.val
      fulfilled := s.fulfilled ++ [(id, r.val)] } := ⟨_, rfl⟩
  have h₂ : stepWorker cap (s₁.goto i (.fulfillValue (.collect (.pump .loop false) j) id r.val)) i =
      some (s₂.goto i (.fulfillDone (.collect (.pump .loop false) j) id)) := by
    simp [stepWorker, hs₂, hs₁, State.goto, State.setReply]
  obtain ⟨s₃, hs₃⟩ : ∃ s₃, s₃ = { s₂ with reqs := (s.reqs.setValue id r.val).setDone id } := ⟨_, rfl⟩
  have h₃ : stepWorker cap (s₂.goto i (.fulfillDone (.collect (.pump .loop false) j) id)) i =
      some (s₃.goto i (.collect (.pump .loop false) true j)) := by
    simp [stepWorker, hs₃, hs₂, hs₁, State.goto, State.setReply, FulfillCaller.resume]
  have h₄ : Reaches cap (s₃.goto i (.collect (.pump .loop false) true j)) s₃ := by
    rw [hs₃, hs₂, hs₁]
    exact reaches_round (by simp [hpc]) (reply_popped hrep) hstop hin
  have hrun := (((Reaches.step h₁).trans (Reaches.step h₂)).trans (Reaches.step h₃)).trans h₄
  rwa [hs₃, hs₂, hs₁] at hrun

end Collect

/-- The client of a fulfilled request returns. -/
theorem reaches_return (cap : ℕ) {t : τ} {id : ℕ} (hpc : s.clients t = .wait id)
    (hdone : s.reqs.doneOf id = true) :
    ∃ hist, Reaches cap s
      { s with
        reqs := s.reqs.setValue id none
        hist := hist
        clients := Function.update s.clients t .idle } := by
  refine ⟨s.hist ++ [.res id (s.reqs.valueOf id)], .tail (.single (b := s.clientGoto t (.take id))
    ⟨.client t (.run true), ?_⟩) ⟨.client t (.run true), ?_⟩⟩
  · simp [step, stepClient, hpc, hdone]
  · simp [step, stepClient, State.clientGoto]

end Phases

/-! ## A service at rest -/

/-- Nothing is in any queue and every worker is at the start of a round. -/
structure AtRest (s : State τ n) : Prop where
  stop : s.stop = false
  ingress : ∀ i, s.ingress i = none
  cmd : ∀ ij, s.cmd ij = []
  reply : ∀ ij, s.reply ij = []
  pc : ∀ i, (s.workers i).pc = .pump .loop false 0

/-- The program points of a round that finds nothing. -/
inductive Searching : Pc n → Prop
  | pump {p src} : Searching (.pump .loop p src)
  | collect {p q src} : Searching (.collect (.pump .loop p) q src)
  | swap {p} : Searching (.swap p)
  | loadStop {p} : Searching (.loadStop p)

theorem AtRest.searching (h : AtRest s) {pc pc' : Pc n} (hp : Searching pc)
    (hst : Scan cap s i pc pc') : Searching pc' := by
  cases hst with
  | pumpEmpty | pumpEnd | collectEmpty | collectEnd =>
      cases hp
      constructor
  | swapNone | again => constructor
  | stopSeen hstop =>
      rw [h.stop] at hstop
      cases hstop
  | _ => cases hp

theorem AtRest.searches (h : AtRest s) {pc : Pc n}
    (hsc : ReflTransGen (Scan cap s i) (s.workers i).pc pc) : Searching pc := by
  induction hsc with
  | refl =>
      rw [h.pc i]
      exact .pump
  | tail _ hst ih => exact h.searching ih hst

/-- In a service at rest nobody finds anything to do. -/
theorem AtRest.not_progresses (h : AtRest s) (i : Fin n) : ¬ Progresses cap s i := by
  rintro ⟨pc, hsc, s', hact⟩
  have hsearch := h.searches hsc
  cases hact with
  | pumpPut _ hq | pumpGet _ hq =>
      rw [show (s.goto i pc).cmd = s.cmd from rfl, h.cmd] at hq
      cases hq
  | collectMiss _ hq | collectHit _ hq =>
      rw [show (s.goto i pc).reply = s.reply from rfl, h.reply] at hq
      cases hq
  | swapSome _ hin =>
      rw [show (s.goto i pc).ingress = s.ingress from rfl, h.ingress] at hin
      cases hin
  | insert hpc | answer hpc | replyOk hpc | fulfillValue hpc | fulfillDone hpc | walk hpc
  | putLocal hpc | putRemote hpc | getLocal hpc | getRemote hpc | forwardGet hpc | forwardPut hpc =>
      rw [goto_pc_self] at hpc
      rw [hpc] at hsearch
      cases hsearch

/-! ## The loop -/

/-- The token of the first get that worker 1 forwards. -/
def firstToken : ℕ := tokenOf (1 : Fin 4) 0

/-- Client `false` waits for request 0, whose command worker 2 has not taken up yet.  Worker 1 has made
`c` tokens, and `w` are its waiters.  Otherwise the service is at rest. -/
structure Ready (s : State Bool 4) (c : ℕ) (w : List (ℕ × ℕ)) : Prop where
  stop : s.stop = false
  ingress : ∀ i, s.ingress i = none
  cmd : ∀ ij, s.cmd ij = if ij = (1, 2) then [.get [3] 1 firstToken] else []
  reply : ∀ ij, s.reply ij = []
  pc : ∀ i, (s.workers i).pc = .pump .loop false 0
  waiters : (s.workers 1).waiters = w
  token : (s.workers 1).nextToken = c
  born : 0 < s.reqs.length
  undone : s.reqs.doneOf 0 = false
  waits : s.clients false = .wait 0
  idle : s.clients true = .idle

theorem owner_zero : owner 4 [0] = 3 := by decide

theorem owner_three : owner 4 [3] = 2 := by decide

/-- One round trip: client `true` asks worker 1, which asks worker 3. -/
theorem Ready.round {s : State Bool 4} {c : ℕ} {w : List (ℕ × ℕ)} (h : Ready s c w) :
    ∃ s', Reaches 2 s s' ∧ Ready s' (c + 1) (w.filter (·.1 ≠ tokenOf (1 : Fin 4) c)) := by
  obtain ⟨reqs, hist, h₁, hlen, hop, hnext, -, hold⟩ := reaches_submit 2 [0] 1 h.idle (h.ingress 1)
  -- five stretches: submit, forward, answer, collect, return; each state is named so that simp
  -- unfolds it only where a field is asked for
  obtain ⟨s₁, hs₁⟩ : ∃ s₁, s₁ = { s with
          reqs := reqs
          hist := hist
          ingress := Function.update s.ingress 1 (some s.reqs.length)
          clients := Function.update s.clients true (.wait s.reqs.length) } := ⟨_, rfl⟩
  rw [← hs₁] at h₁
  have h₂ : Reaches 2 s₁ (s₁.forwarded 1 [0] s.reqs.length) :=
    reaches_forward (by simp [hs₁, h.pc]) (by simp [hs₁, h.cmd]) (by simp [hs₁, h.reply]) (by simp [hs₁])
      (by simpa [hs₁] using hnext) (by simpa [hs₁] using hop) (by decide)
      (by simp [hs₁, h.cmd, owner_zero])
  obtain ⟨s₂, hs₂⟩ : ∃ s₂, s₂ = s₁.forwarded 1 [0] s.reqs.length := ⟨_, rfl⟩
  rw [← hs₂] at h₂
  have hcmd : ∀ b, b ≠ 1 → s₂.cmd (b, 3) = [] := by
    intro b hb
    simp [hs₂, hs₁, State.forwarded, owner_zero, hb, h.cmd]
  have h₃ : Reaches 2 s₂ (s₂.answered 1 3 [0] (tokenOf (1 : Fin 4) c)) := by
    refine reaches_answer ?_ hcmd ?_ ?_ ?_ ?_ ?_ (by decide) (by decide) <;>
      simp [hs₂, hs₁, State.forwarded, owner_zero, h.pc, h.cmd, h.reply, h.stop, h.ingress, h.token]
  obtain ⟨s₃, hs₃⟩ : ∃ s₃, s₃ = s₂.answered 1 3 [0] (tokenOf (1 : Fin 4) c) := ⟨_, rfl⟩
  rw [← hs₃] at h₃
  obtain ⟨r, hr⟩ : ∃ r : Reply, r = { token := tokenOf (1 : Fin 4) c, val := (s₂.workers 3).shard [0] } :=
    ⟨_, rfl⟩
  have hrep : ∀ b, b ≠ 3 → s₃.reply (b, 1) = [] := by
    intro b hb
    simp [hs₃, hs₂, hs₁, State.answered, State.forwarded, hb, h.reply]
  have h₄ : Reaches 2 s₃ (s₃.collected 1 3 r s.reqs.length) := by
    refine reaches_collect_hit ?_ ?_ hrep ?_ ?_ ?_ ?_ <;>
      simp [hr, hs₃, hs₂, hs₁, State.answered, State.forwarded, owner_zero, h.pc, h.cmd, h.stop, h.token]
  obtain ⟨s₄, hs₄⟩ : ∃ s₄, s₄ = s₃.collected 1 3 r s.reqs.length := ⟨_, rfl⟩
  rw [← hs₄] at h₄
  have hdone : s₄.reqs.doneOf s.reqs.length = true := by
    rw [hs₄]
    exact Heap.doneOf_setDone_self _ (by simp [hs₃, hs₂, hs₁, State.answered, State.forwarded, hlen])
  obtain ⟨hist', h₅⟩ := reaches_return (t := true) 2
    (by simp [hs₄, hs₃, hs₂, hs₁, State.collected, State.answered, State.forwarded]) hdone
  refine ⟨_, (((h₁.trans h₂).trans h₃).trans h₄).trans h₅, ?_⟩
  have hpos := h.born
  -- what is left of the round: one token more, and no waiter under the old one
  constructor
  case cmd =>
    rintro ⟨a, b⟩
    by_cases hab : (a, b) = (1, 3)
    · simp [hab, hs₄, hs₃, hs₂, hs₁, State.collected, State.answered, State.forwarded, owner_zero]
    · simp [hab, hs₄, hs₃, hs₂, hs₁, State.collected, State.answered, State.forwarded, owner_zero, h.cmd]
  case undone =>
    have h0 : reqs.doneOf 0 = false := (hold 0 hpos).trans h.undone
    simp [hs₄, hs₃, hs₂, hs₁, State.collected, State.answered, State.forwarded]
    rw [Heap.doneOf_setDone_of_ne _ hpos.ne', Heap.doneOf_setValue, h0]
  case pc =>
    intro i
    by_cases hi : i = 1
    · simp [hi, hs₄, hs₃, hs₂, hs₁, State.collected, State.answered, State.forwarded, h.pc]
    · simp [hi, hs₄, hs₃, hs₂, hs₁, State.collected, State.answered, State.forwarded, h.pc]
  all_goals simp [hr, hs₄, hs₃, hs₂, hs₁, State.collected, State.answered, State.forwarded,
    Function.update_apply, h.reply, h.stop, h.ingress, h.token, h.waits, h.waiters, hlen]

/-- The first get of worker 1 is on its way to worker 2. -/
theorem ready_one : ∃ s, (machine Bool 4 2).Reachable s ∧ Ready s 1 [(firstToken, 0)] := by
  obtain ⟨reqs, hist, h₁, hlen, hop, hnext, hundone, -⟩ :=
    reaches_submit (s := State.new Bool 4) (t := false) 2 [3] 1 rfl rfl
  obtain ⟨s₁, hs₁⟩ : ∃ s₁, s₁ = { State.new Bool 4 with
      reqs := reqs
      hist := hist
      ingress := Function.update (State.new Bool 4).ingress 1 (some 0)
      clients := Function.update (State.new Bool 4).clients false (.wait 0) } := ⟨_, rfl⟩
  have h₁ : Reaches 2 (State.new Bool 4) s₁ := hs₁ ▸ h₁
  have h₂ : Reaches 2 s₁ (s₁.forwarded 1 [3] 0) := by
    refine reaches_forward (by simp [hs₁, State.new]) (by simp [hs₁, State.new]) (by simp [hs₁, State.new])
      (by simp [hs₁]) (by rw [hs₁]; exact hnext) (by rw [hs₁]; exact hop) (by decide)
      (by simp [hs₁, State.new])
  have hlen : reqs.length = 1 := hlen
  refine ⟨_, Reaches.reachable (h₁.trans h₂) (.start rfl), ?_⟩
  constructor
  case pc =>
    intro i
    by_cases hi : i = 1 <;> simp [hi, hs₁, State.new, State.forwarded]
  case undone => rw [hs₁]; exact hundone
  all_goals simp [hs₁, State.new, State.forwarded, owner_three, firstToken, Function.update_apply, hlen]

/-- The token comes round after `2 ^ 48` gets. -/
theorem tokenOf_wraps : tokenOf (1 : Fin 4) (2 ^ 48) = firstToken := by decide

theorem tokenOf_ne_first {c : ℕ} (hc : 0 < c) (hlt : c < 2 ^ 48) : tokenOf (1 : Fin 4) c ≠ firstToken :=
  fun he => hc.ne' (tokenOf_inj hlt (by decide) he)

/-- Up to `2 ^ 48` gets the first one keeps its waiter. -/
theorem ready_le {c : ℕ} (hc : 0 < c) (hle : c ≤ 2 ^ 48) :
    ∃ s, (machine Bool 4 2).Reachable s ∧ Ready s c [(firstToken, 0)] := by
  induction c with
  | zero => exact absurd hc (lt_irrefl 0)
  | succ c ih =>
      rcases Nat.eq_zero_or_pos c with rfl | hpos
      · exact ready_one
      · obtain ⟨s, hs, h⟩ := ih hpos (Nat.le_of_succ_le hle)
        obtain ⟨s', hrun, h'⟩ := h.round
        refine ⟨s', hrun.reachable hs, ?_⟩
        simpa [tokenOf_ne_first hpos hle, Ne.symm (tokenOf_ne_first hpos hle)] using h'

/-- The next one takes it away. -/
theorem ready_lost : ∃ s, (machine Bool 4 2).Reachable s ∧ Ready s (2 ^ 48 + 1) [] := by
  obtain ⟨s, hs, h⟩ := ready_le (Nat.two_pow_pos 48) le_rfl
  obtain ⟨s', hrun, h'⟩ := h.round
  have hlost : [(firstToken, 0)].filter (·.1 ≠ tokenOf (1 : Fin 4) (2 ^ 48)) = [] := by
    rw [tokenOf_wraps]
    decide
  rw [hlost] at h'
  exact ⟨s', hrun.reachable hs, h'⟩

/-- When worker 2 answers at last, nobody waits for its reply. -/
theorem Ready.rest {s : State Bool 4} {c : ℕ} (h : Ready s c []) :
    ∃ s', Reaches 2 s s' ∧ AtRest s' ∧ 0 < s'.reqs.length ∧ s'.reqs.doneOf 0 = false ∧
      s'.clients = s.clients := by
  have hcmd : ∀ b, b ≠ 1 → s.cmd (b, 2) = [] := by
    intro b hb
    simp [h.cmd, hb]
  have h₁ : Reaches 2 s (s.answered 1 2 [3] firstToken) :=
    reaches_answer (h.pc 2) hcmd (by simp [h.cmd]) (fun b => h.reply _) h.stop (h.ingress 2) (h.reply _)
      (by decide) (by decide)
  obtain ⟨s₁, hs₁⟩ : ∃ s₁, s₁ = s.answered 1 2 [3] firstToken := ⟨_, rfl⟩
  rw [← hs₁] at h₁
  have hrep : ∀ b, b ≠ 2 → s₁.reply (b, 1) = [] := by
    intro b hb
    simp [hs₁, State.answered, hb, h.reply]
  have h₂ : Reaches 2 s₁ (s₁.dropped 1 2) := by
    refine reaches_collect_miss (r := { token := firstToken, val := (s.workers 2).shard [3] })
      ?_ ?_ hrep ?_ ?_ ?_ ?_ <;>
      simp [hs₁, State.answered, h.pc, h.cmd, h.stop, h.ingress, h.waiters]
  refine ⟨_, h₁.trans h₂, ?_, ?_, ?_, ?_⟩
  · constructor
    case cmd =>
      intro ij
      by_cases hij : ij = (1, 2)
      · simp [hij, hs₁, State.answered, State.dropped]
      · simp [hij, hs₁, State.answered, State.dropped, h.cmd]
    all_goals simp [hs₁, State.answered, State.dropped, Function.update_apply, h.stop, h.ingress, h.reply, h.pc]
  · rw [hs₁]; exact h.born
  · rw [hs₁]; exact h.undone
  · rw [hs₁]; rfl

/-- **After `2^48` forwarded gets the service can lose one.**  Request 0 is not fulfilled and its client
waits for it, `stop` is not set, and no worker finds anything to do. -/
theorem reused_token_deadlocks :
    ∃ s : State Bool 4, (machine Bool 4 2).Reachable s ∧ s.stop = false ∧ 0 < s.reqs.length ∧
      s.reqs.doneOf 0 = false ∧ (∀ t, (s.clients t).pushing = false) ∧ ∀ i, ¬ Progresses 2 s i := by
  obtain ⟨s, hs, h⟩ := ready_lost
  obtain ⟨s', hrun, hrest, hborn, hundone, hcl⟩ := h.rest
  refine ⟨s', hrun.reachable hs, hrest.stop, hborn, hundone, ?_, hrest.not_progresses⟩
  intro t
  rw [hcl]
  cases t
  · rw [h.waits]; rfl
  · rw [h.idle]; rfl

end ZeroKv.Mesh.Service
