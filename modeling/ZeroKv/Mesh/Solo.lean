/-
# ZeroKv.Mesh.Solo — how far a worker gets when nobody else moves.

A worker that runs alone finds something to do, or its loops bring it to one of four points: a push to
a full queue, with nothing to pump; a reply to a full queue, with nothing to collect; the end of a
round that found nothing; or its exit.  The loops of `pump_matrix` and `collect_replies` are followed
by induction on the inboxes left to look at.
-/
import Mathlib.Logic.Relation
import ZeroKv.Mesh.Service

namespace ZeroKv.Mesh.Service

open Relation (ReflTransGen)

variable {τ : Type} {n : ℕ} [NeZero n] {cap : ℕ} {s : State τ n} {i : Fin n}

/-- What a turn of a loop finds does not depend on where the worker is. -/
theorem Scan.goto {pc pc' pc₀ : Pc n} (h : Scan cap s i pc pc') : Scan cap (s.goto i pc₀) i pc pc' := by
  cases h with
  | pumpEmpty hq => exact .pumpEmpty hq
  | pumpEnd hsrc => exact .pumpEnd hsrc
  | replyFull hcap => exact .replyFull hcap
  | collectEmpty hq => exact .collectEmpty hq
  | collectEnd hsrc => exact .collectEnd hsrc
  | swapNone hin => exact .swapNone hin
  | serveNil => exact .serveNil
  | forwardFull hcap => exact .forwardFull hcap
  | stopSeen hstop hw => exact .stopSeen hstop (by rwa [goto_waiters])
  | again hgo => exact .again (by rwa [goto_waiters])
  | exit hin => exact .exit hin
  | notEmpty hin => exact .notEmpty hin

/-- At `pc` the worker has something to do. -/
def Busy (cap : ℕ) (s : State τ n) (i : Fin n) (pc : Pc n) : Prop :=
  ∃ s', Act cap (s.goto i pc) i s'

/-- At `pc` the worker can do nothing before somebody else moves. -/
inductive Stalled (cap : ℕ) (s : State τ n) (i : Fin n) : Pc n → Prop
  | forward {cmd ack rest} (hcap : cap ≤ (s.cmd (i, owner n cmd.key)).length)
      (hcmd : ∀ b, s.cmd (b, i) = []) (hrep : ∀ b, s.reply (b, i) = []) :
      Stalled cap s i (.forward cmd ack rest)
  | reply {c src dst r} (hcap : cap ≤ (s.reply (i, dst)).length) (hrep : ∀ b, s.reply (b, i) = []) :
      Stalled cap s i (.reply c src dst r)
  | idle (hcmd : ∀ b, s.cmd (b, i) = []) (hrep : ∀ b, s.reply (b, i) = [])
      (hin : s.ingress i = none) : Stalled cap s i (.loadStop false)
  | exited : Stalled cap s i .exited

/-- Where a worker gets to on its own. -/
abbrev Gets (cap : ℕ) (s : State τ n) (i : Fin n) (pc : Pc n) (P : Pc n → Prop) : Prop :=
  ∃ pc', ReflTransGen (Scan cap s i) pc pc' ∧ (Busy cap s i pc' ∨ P pc')

theorem Gets.head {pc pc' : Pc n} {P : Pc n → Prop} (h : Scan cap s i pc pc')
    (hg : Gets cap s i pc' P) : Gets cap s i pc P := by
  obtain ⟨pc'', hsc, hp⟩ := hg
  exact ⟨pc'', .head h hsc, hp⟩

theorem Gets.bind {pc : Pc n} {P Q : Pc n → Prop} (h : Gets cap s i pc P)
    (hpq : ∀ pc', P pc' → Gets cap s i pc' Q) : Gets cap s i pc Q := by
  obtain ⟨pc', hsc, hb | hp⟩ := h
  · exact ⟨pc', hsc, .inl hb⟩
  · obtain ⟨pc'', hsc', hq⟩ := hpq pc' hp
    exact ⟨pc'', hsc.trans hsc', hq⟩

theorem Gets.now {pc : Pc n} {P : Pc n → Prop} (h : P pc) : Gets cap s i pc P := ⟨pc, .refl, .inr h⟩

theorem Gets.busy {pc : Pc n} {P : Pc n → Prop} {s' : State τ n} (h : Act cap (s.goto i pc) i s') :
    Gets cap s i pc P := ⟨pc, .refl, .inl ⟨s', h⟩⟩

/-- `collect_replies` on its own: it finds a reply, or there is none. -/
theorem gets_collect (c : CollectCaller n) (p : Bool) (src : ℕ) :
    Gets cap s i (.collect c p src) fun pc =>
      pc = c.resume p ∧ ∀ b : Fin n, src ≤ b → s.reply (b, i) = [] := by
  by_cases hsrc : src < n
  · match hq : s.reply (⟨src, hsrc⟩, i) with
    | [] =>
        refine .head (.collectEmpty (j := ⟨src, hsrc⟩) hq) ((gets_collect c p (src + 1)).bind ?_)
        rintro pc ⟨rfl, hrest⟩
        refine .now ⟨rfl, fun b hb => ?_⟩
        rcases Nat.eq_or_lt_of_le hb with hb | hb
        · obtain rfl : (⟨src, hsrc⟩ : Fin n) = b := Fin.ext hb
          exact hq
        · exact hrest b hb
    | r :: q =>
        match hw : ((s.goto i (.collect c p src)).workers i).waiters.lookup r.token with
        | none => exact .busy (.collectMiss (j := ⟨src, hsrc⟩) (goto_pc_self ..) hq hw)
        | some id => exact .busy (.collectHit (j := ⟨src, hsrc⟩) (goto_pc_self ..) hq hw)
  · refine .head (.collectEnd (Nat.le_of_not_lt hsrc)) (.now ⟨rfl, fun b hb => ?_⟩)
    exact absurd (hb.trans_lt b.isLt) hsrc
termination_by n - src

/-- `pump_matrix` on its own: it finds a command or a reply, or there is none. -/
theorem gets_pump (c : PumpCaller n) (p : Bool) (src : ℕ) :
    Gets cap s i (.pump c p src) fun pc =>
      pc = c.resume p ∧ (∀ b : Fin n, src ≤ b → s.cmd (b, i) = []) ∧ ∀ b, s.reply (b, i) = [] := by
  by_cases hsrc : src < n
  · match hq : s.cmd (⟨src, hsrc⟩, i) with
    | [] =>
        refine .head (.pumpEmpty (j := ⟨src, hsrc⟩) hq) ((gets_pump c p (src + 1)).bind ?_)
        rintro pc ⟨rfl, hrest, hrep⟩
        refine .now ⟨rfl, fun b hb => ?_, hrep⟩
        rcases Nat.eq_or_lt_of_le hb with hb | hb
        · obtain rfl : (⟨src, hsrc⟩ : Fin n) = b := Fin.ext hb
          exact hq
        · exact hrest b hb
    | .put key val :: q => exact .busy (.pumpPut (j := ⟨src, hsrc⟩) (goto_pc_self ..) hq)
    | .get key dst token :: q => exact .busy (.pumpGet (j := ⟨src, hsrc⟩) (goto_pc_self ..) hq)
  · refine .head (.pumpEnd (Nat.le_of_not_lt hsrc)) ((gets_collect (.pump c p) false 0).bind ?_)
    rintro pc ⟨rfl, hrep⟩
    refine .now ⟨by rw [CollectCaller.resume, Bool.or_false], fun b hb => ?_, fun b => hrep b b.val.zero_le⟩
    exact absurd (hb.trans_lt b.isLt) hsrc
termination_by n - src

/-- A full round of the service loop. -/
theorem gets_round : Gets cap s i (.pump .loop false 0) (Stalled cap s i) := by
  refine (gets_pump .loop false 0).bind ?_
  rintro pc ⟨rfl, hcmd, hrep⟩
  match hin : s.ingress i with
  | some id => exact .busy (.swapSome (goto_pc_self ..) hin)
  | none => exact .head (.swapNone hin) (.now (.idle (fun b => hcmd b b.val.zero_le) hrep hin))

/-- After the end of a round, which may have made progress. -/
theorem gets_loadStop (p : Bool) : Gets cap s i (.loadStop p) (Stalled cap s i) := by
  by_cases hgo : s.stop = true ∧ p = false ∧ (s.workers i).waiters = []
  · obtain ⟨hstop, rfl, hw⟩ := hgo
    refine .head (.stopSeen hstop hw) ?_
    by_cases hin : s.ingress i = none
    · exact .head (.exit hin) (.now .exited)
    · exact .head (.notEmpty hin) gets_round
  · exact .head (.again hgo) gets_round

theorem gets_swap (p : Bool) : Gets cap s i (.swap p) (Stalled cap s i) := by
  match hin : s.ingress i with
  | some id => exact .busy (.swapSome (goto_pc_self ..) hin)
  | none => exact .head (.swapNone hin) (gets_loadStop p)

/-- The loop around a push of a command. -/
theorem gets_forward (cmd : Command n) (ack : Option ℕ) (rest : List ℕ) :
    Gets cap s i (.forward cmd ack rest) (Stalled cap s i) := by
  by_cases hcap : (s.cmd (i, owner n cmd.key)).length < cap
  · cases ack with
    | none => exact .busy (.forwardGet (goto_pc_self ..) hcap)
    | some id => exact .busy (.forwardPut (goto_pc_self ..) hcap)
  · refine .head (.forwardFull (Nat.le_of_not_lt hcap)) ((gets_pump _ false 0).bind ?_)
    rintro pc ⟨rfl, hcmd, hrep⟩
    exact .now (.forward (Nat.le_of_not_lt hcap) (fun b => hcmd b b.val.zero_le) hrep)

/-- The loop around a push of a reply. -/
theorem gets_reply (c : PumpCaller n) (src : ℕ) (dst : Fin n) (r : Reply) :
    Gets cap s i (.reply c src dst r) (Stalled cap s i) := by
  by_cases hcap : (s.reply (i, dst)).length < cap
  · exact .busy (.replyOk (goto_pc_self ..) hcap)
  · refine .head (.replyFull (Nat.le_of_not_lt hcap)) ((gets_collect _ false 0).bind ?_)
    rintro pc ⟨rfl, hrep⟩
    exact .now (.reply (Nat.le_of_not_lt hcap) fun b => hrep b b.val.zero_le)

theorem gets_resume (c : PumpCaller n) (p : Bool) :
    Gets cap s i (c.resume p) (Stalled cap s i) := by
  cases c with
  | loop => exact gets_swap p
  | forward cmd ack rest => exact gets_forward cmd ack rest

theorem gets_serve (reqs : List ℕ) : Gets cap s i (.serve reqs) (Stalled cap s i) := by
  cases reqs with
  | nil => exact .head .serveNil (gets_loadStop true)
  | cons id rest =>
      have hpc : ((s.goto i (.serve (id :: rest))).workers i).pc = .serve (id :: rest) :=
        goto_pc_self ..
      cases hop : s.reqs.opOf id with
      | put key val =>
          by_cases ho : owner n key = i
          · exact .busy (.putLocal hpc hop ho)
          · exact .busy (.putRemote hpc hop ho)
      | get key =>
          by_cases ho : owner n key = i
          · exact .busy (.getLocal hpc hop ho)
          · exact .busy (.getRemote hpc hop ho)

variable (cap s i) in
/-- On its own, a worker finds something to do or gets to a point where it is stalled. -/
theorem gets_stalled (pc : Pc n) : Gets cap s i pc (Stalled cap s i) := by
  cases pc with
  | pump c p src =>
      refine (gets_pump c p src).bind ?_
      rintro pc ⟨rfl, -⟩
      exact gets_resume c p
  | insert c src key val => exact .busy (.insert (goto_pc_self ..))
  | answer c src key dst token => exact .busy (.answer (goto_pc_self ..))
  | reply c src dst r => exact gets_reply c src dst r
  | collect c p src =>
      refine (gets_collect c p src).bind ?_
      rintro pc ⟨rfl, -⟩
      cases c with
      | pump c q => exact gets_resume c _
      | reply c src dst r => exact gets_reply c src dst r
  | fulfillValue c id val => exact .busy (.fulfillValue (goto_pc_self ..))
  | fulfillDone c id => exact .busy (.fulfillDone (goto_pc_self ..))
  | swap p => exact gets_swap p
  | walk id reqs => exact .busy (.walk (goto_pc_self ..))
  | serve reqs => exact gets_serve reqs
  | forward cmd ack rest => exact gets_forward cmd ack rest
  | loadStop p => exact gets_loadStop p
  | loadHead =>
      by_cases hin : s.ingress i = none
      · exact .head (.exit hin) (.now .exited)
      · exact .head (.notEmpty hin) gets_round
  | exited => exact .now .exited

end ZeroKv.Mesh.Service
