/-
# ZeroKv.GroupCommit.Wakes — the handshake of each record inside the whole log.

The log of `Wal` runs the handshake of `Handshake` once for each record: `Follows n` reads the state of that
machine for record `n` off the state of the log, and `Follows.step` matches a step of the log by at most two
of its steps.  So a wake is not missed in the log either, whatever the other threads and the Batcher do.
-/
import ZeroKv.GroupCommit.Handshake
import ZeroKv.GroupCommit.Order

namespace ZeroKv.GroupCommit

open Handshake (PollPc)

variable {τ : Type} {s s' : State τ} {n : ℕ} {k : Handshake.State ℕ}

/-! ## What belongs to a record -/

/-- The call of `poll` on record `n` that a client is in. -/
def ClientPc.pollOf (n : ℕ) : ClientPc → Option (PollPc ℕ)
  | .pollLoad m w => if m = n then some (.load w) else none
  | .pollStore m w => if m = n then some (.store w) else none
  | .pollCheck m w => if m = n then some (.check w) else none
  | _ => none

/-- The record whose waker the Batcher is about to take. -/
def BatcherPc.waking : BatcherPc → Option ℕ
  | .signalWake _ n _ => some n
  | _ => none

@[simp] theorem signalFrom_waking (r : Bool) (b : List ℕ) : (signalFrom r b).waking = none := by
  cases b <;> cases r <;> rfl

@[simp] theorem collectFrom_waking (r : Bool) (b : List ℕ) (n : Option ℕ) :
    (collectFrom r b n).waking = none := by
  cases n <;> rfl

/-- The entries of a history that are about record `n`. -/
def about {β : Type} (n : ℕ) (l : List (ℕ × β)) : List β :=
  (l.filter fun x => x.1 = n).map Prod.snd

theorem about_append {β : Type} (n : ℕ) (l l' : List (ℕ × β)) :
    about n (l ++ l') = about n l ++ about n l' := by
  simp [about]

@[simp] theorem about_self {β : Type} (n : ℕ) (b : β) : about n [(n, b)] = [b] := by
  simp [about]

theorem about_of_ne {β : Type} {n m : ℕ} (h : m ≠ n) (b : β) : about n [(m, b)] = [] := by
  simp [about, h]

/-- The machine of record `n` is in the state `k`.  At most one client polls the record, because a poll has
its future to itself. -/
structure Follows (n : ℕ) (s : State τ) (k : Handshake.State ℕ) : Prop where
  done : k.done = (s.recs.completionOf n).done
  waker : k.waker = (s.recs.completionOf n).waker
  signal : k.signal = if s.batcher.waking = some n then .take else .idle
  polls : k.polls = about n s.polls
  woken : k.woken = about n s.woken
  poller : (k.poll = .idle ∧ ∀ t, (s.clients t).pollOf n = none) ∨
    (s.recs.completionOf n).borrowed = true ∧ n < s.recs.length ∧
      ∃ t, (s.clients t).pollOf n = some k.poll ∧ ∀ u, u ≠ t → (s.clients u).pollOf n = none

/-- A step that does not concern record `n`. -/
theorem Follows.frame (h : Follows n s k)
    (hcomp : s'.recs.completionOf n = s.recs.completionOf n)
    (hlen : s.recs.length ≤ s'.recs.length)
    (hpc : ∀ t, (s'.clients t).pollOf n = (s.clients t).pollOf n)
    (hwaking : s'.batcher.waking = some n ↔ s.batcher.waking = some n)
    (hpolls : about n s'.polls = about n s.polls) (hwoken : about n s'.woken = about n s.woken) :
    Follows n s' k where
  done := by rw [hcomp, h.done]
  waker := by rw [hcomp, h.waker]
  signal := by rw [h.signal]; simp only [hwaking]
  polls := by rw [hpolls, h.polls]
  woken := by rw [hwoken, h.woken]
  poller := by
    rcases h.poller with ⟨hidle, hnone⟩ | ⟨hb, hlt, t, ht, hothers⟩
    · exact .inl ⟨hidle, fun t => (hpc t).trans (hnone t)⟩
    · exact .inr ⟨by rw [hcomp, hb], hlt.trans_le hlen, t, (hpc t).trans ht,
        fun u hu => (hpc u).trans (hothers u hu)⟩

theorem completionOf_append_new (h : Heap) {p : Pending} (hp : p.completion = .new) (n : ℕ) :
    Heap.completionOf (h ++ [p]) n = h.completionOf n := by
  rcases Nat.lt_trichotomy n h.length with hn | rfl | hn
  · rw [Heap.completionOf_append _ hn]
  · simp [Heap.completionOf, hp]
  · have hlen : (h ++ [p]).length ≤ n := by simpa using Nat.succ_le_of_lt hn
    simp [Heap.completionOf, List.getElem?_eq_none hlen, List.getElem?_eq_none hn.le]

theorem Follows.poller_onCompletion (h : Follows n s k) (f : Completion → Completion)
    (hf : ∀ c, (f c).borrowed = c.borrowed) (hlt : n < s.recs.length) :
    (k.poll = .idle ∧ ∀ t, (s.clients t).pollOf n = none) ∨
      ((s.recs.onCompletion n f).completionOf n).borrowed = true ∧
        n < (s.recs.onCompletion n f).length ∧
        ∃ t, (s.clients t).pollOf n = some k.poll ∧ ∀ u, u ≠ t → (s.clients u).pollOf n = none := by
  rcases h.poller with hfree | ⟨hborrow, -, hwho⟩
  · exact .inl hfree
  · refine .inr ⟨?_, by simpa using hlt, hwho⟩
    rw [s.recs.completionOf_onCompletion_self hlt, hf, hborrow]

/-- The record whose waker is about to be taken is marked, and so it is one of the heap. -/
theorem Follows.waking_lt (hs : Sited s) (hk : Handshake.Inv k) (h : Follows n s k)
    (hb : s.batcher.waking = some n) : n < s.recs.length := by
  have htake : k.signal = .take := by rw [h.signal, if_pos hb]
  have hdone : k.done = true := hk.set_iff.mpr (.inr (.inl htake))
  have hcom := hs.signalled.sound n (h.done ▸ hdone)
  obtain ⟨stack, chain, hp⟩ := hs.placed
  exact hs.owned.pushed_lt n (hp.mem_pushed.mpr (.inr (.inr (.inr hcom))))

/-- The Batcher sets the flag of record `n`: the call of `signal` and its first access. -/
theorem Follows.signalDone (h : Follows n s k) {running : Bool} {rest : List ℕ}
    (hb : s.batcher = .signalDone running n rest) (hlt : n < s.recs.length) :
    ∃ k', Machine.runFn Handshake.step k [.signal, .goSignal] = some k' ∧
      Follows n { s with
        recs := s.recs.onCompletion n fun c => { c with done := true }
        batcher := .signalWake running n rest } k' := by
  have hself := s.recs.completionOf_onCompletion_self hlt fun c => { c with done := true }
  have hk : k.signal = .idle := by
    rw [h.signal, hb]
    rfl
  refine ⟨{ k with done := true, signal := .take }, ?_, ?_, ?_, ?_, h.polls, h.woken, ?_⟩
  · simp [Machine.runFn, Handshake.step, Handshake.stepSignal, hk]
  · simp only [hself]
  · simp only [hself, h.waker]
  · simp [BatcherPc.waking]
  · exact h.poller_onCompletion (fun c => { c with done := true }) (fun _ => rfl) hlt

/-- The Batcher takes the waker of record `n` and wakes it. -/
theorem Follows.signalWake (h : Follows n s k) {running : Bool} {rest : List ℕ}
    (hb : s.batcher = .signalWake running n rest) (hlt : n < s.recs.length) :
    ∃ acts k', Machine.runFn Handshake.step k acts = some k' ∧
      Follows n { s with
        recs := s.recs.onCompletion n fun c => { c with waker := none }
        woken := s.woken ++ ((s.recs.completionOf n).waker.map fun w => (n, w)).toList
        batcher := signalFrom running rest } k' := by
  have hself := s.recs.completionOf_onCompletion_self hlt fun c => { c with waker := none }
  have hk : k.signal = .take := by
    rw [h.signal, hb]
    simp [BatcherPc.waking]
  have hpoller := h.poller_onCompletion (fun c => { c with waker := none }) (fun _ => rfl) hlt
  cases hw : (s.recs.completionOf n).waker with
  | none =>
      refine ⟨[.goSignal], { k with signal := .idle, signals := k.signals + 1 }, ?_, ?_, ?_, ?_,
        h.polls, ?_, hpoller⟩
      · simp [Machine.runFn, Handshake.step, Handshake.stepSignal, hk, h.waker, hw]
      · simp only [hself, h.done]
      · simp only [hself, h.waker, hw]
      · simp
      · simpa using h.woken
  | some w =>
      refine ⟨[.goSignal, .goSignal], { k with
        waker := none, signal := .idle, woken := k.woken ++ [w], signals := k.signals + 1 }, ?_, ?_, ?_,
        ?_, h.polls, ?_, hpoller⟩
      · simp [Machine.runFn, Handshake.step, Handshake.stepSignal, hk, h.waker, hw]
      · simp only [hself, h.done]
      · simp only [hself]
      · simp
      · simp only [h.woken, Option.map_some, Option.toList_some, about_append, about_self]

section Step

variable [DecidableEq τ] {maxBatch : ℕ} {l : Label τ} {t : τ}

theorem pollOf_goto {pc : ClientPc} (h : pc.pollOf n = (s.clients t).pollOf n) (u : τ) :
    ((s.goto t pc).clients u).pollOf n = (s.clients u).pollOf n :=
  apply_update_of_eq (fun pc : ClientPc => pc.pollOf n) h u

/-- A poll of record `n` is made by the client that the machine says. -/
theorem Follows.polling (h : Follows n s k) {pc : PollPc ℕ} (ht : (s.clients t).pollOf n = some pc) :
    k.poll = pc ∧ (s.recs.completionOf n).borrowed = true ∧ n < s.recs.length ∧
      ∀ u, u ≠ t → (s.clients u).pollOf n = none := by
  rcases h.poller with ⟨-, hnone⟩ | ⟨hb, hlt, t', ht', hothers⟩
  · simp [hnone t] at ht
  · obtain rfl : t = t' := by
      by_contra hne
      simp [hothers t hne] at ht
    exact ⟨Option.some.inj (ht'.symm.trans ht), hb, hlt, hothers⟩

/-- Client `t` makes the next access of the poll it is in, or starts one. -/
theorem Follows.goto_some {q : PollPc ℕ} {pc : ClientPc} (hpc : pc.pollOf n = some q)
    (hothers : ∀ u, u ≠ t → (s.clients u).pollOf n = none) :
    ∃ v, ((s.goto t pc).clients v).pollOf n = some q ∧
      ∀ u, u ≠ v → ((s.goto t pc).clients u).pollOf n = none := by
  refine ⟨t, ?_, fun u hu => ?_⟩
  · simpa [State.goto] using hpc
  · simpa [State.goto, hu] using hothers u hu

theorem Follows.goto_none {pc : ClientPc} (hpc : pc.pollOf n = none)
    (hothers : ∀ u, u ≠ t → (s.clients u).pollOf n = none) (u : τ) :
    ((s.goto t pc).clients u).pollOf n = none := by
  by_cases hu : u = t
  · subst hu
    simpa [State.goto] using hpc
  · simpa [State.goto, hu] using hothers u hu

/-- A poll of record `n` starts. -/
theorem Follows.poll (h : Follows n s k) {w : ℕ} (hlt : n < s.recs.length)
    (hb : (s.recs.completionOf n).borrowed = false) :
    Handshake.step k (.poll w) = some { k with poll := .load w } ∧
      Follows n { s.goto t (.pollLoad n w) with
        recs := s.recs.onCompletion n fun c => { c with borrowed := true } }
        { k with poll := .load w } := by
  obtain ⟨hidle, hnone⟩ : k.poll = .idle ∧ ∀ t, (s.clients t).pollOf n = none := by
    rcases h.poller with hfree | ⟨hb', -⟩
    · exact hfree
    · simp [hb] at hb'
  have hself := s.recs.completionOf_onCompletion_self hlt fun c => { c with borrowed := true }
  refine ⟨by simp [Handshake.step, hidle], ?_⟩
  refine ⟨?_, ?_, h.signal, h.polls, h.woken, .inr ⟨?_, ?_, ?_⟩⟩
  · simp only [hself, h.done]
  · simp only [hself, h.waker]
  · simp only [hself]
  · simpa using hlt
  · exact goto_some (by simp [ClientPc.pollOf]) fun u _ => hnone u

/-- A poll of record `n` returns. -/
theorem Follows.endPoll (h : Follows n s k) {w : ℕ} {pc : PollPc ℕ} {ready : Bool}
    (ht : (s.clients t).pollOf n = some pc) :
    Follows n (s.endPoll t n w ready) (k.endPoll w ready) := by
  obtain ⟨-, -, hlt, hothers⟩ := h.polling ht
  have hself := s.recs.completionOf_onCompletion_self hlt fun c => { c with borrowed := false }
  refine ⟨?_, ?_, h.signal, ?_, h.woken, .inl ⟨rfl, goto_none rfl hothers⟩⟩
  · simp only [State.endPoll, Handshake.State.endPoll, hself, h.done]
  · simp only [State.endPoll, Handshake.State.endPoll, hself, h.waker]
  · simp only [State.endPoll, Handshake.State.endPoll, about_append, about_self, h.polls]

theorem Follows.endPoll_of_ne (h : Follows n s k) {m w : ℕ} {ready : Bool} (hn : m ≠ n)
    (ht : (s.clients t).pollOf n = none) : Follows n (s.endPoll t m w ready) k :=
  h.frame (s.recs.completionOf_onCompletion_of_ne hn fun c => { c with borrowed := false })
    (by simp [State.endPoll]) (pollOf_goto ht.symm) Iff.rfl
    (by simp [State.endPoll, about_append, about_of_ne hn]) rfl

/-- The accesses of a poll of record `n`, one by one. -/
theorem Follows.pollReady (h : Follows n s k) {w : ℕ} (hpc : s.clients t = .pollLoad n w)
    (hd : (s.recs.completionOf n).done = true) :
    ∃ k', Handshake.step k .goPoll = some k' ∧ Follows n (s.endPoll t n w true) k' := by
  have ht : (s.clients t).pollOf n = some (.load w) := by simp [hpc, ClientPc.pollOf]
  refine ⟨k.endPoll w true, ?_, h.endPoll ht⟩
  simp [Handshake.step, Handshake.stepPoll, (h.polling ht).1, h.done, hd]

theorem Follows.pollWait (h : Follows n s k) {w : ℕ} (hpc : s.clients t = .pollLoad n w)
    (hd : (s.recs.completionOf n).done = false) :
    ∃ k', Handshake.step k .goPoll = some k' ∧ Follows n (s.goto t (.pollStore n w)) k' := by
  have ht : (s.clients t).pollOf n = some (.load w) := by simp [hpc, ClientPc.pollOf]
  obtain ⟨hk, hb, hlt, hothers⟩ := h.polling ht
  refine ⟨{ k with poll := .store w }, ?_, h.done, h.waker, h.signal, h.polls, h.woken, .inr ⟨hb, hlt, ?_⟩⟩
  · have hdown : ¬ k.done = true := by simp [h.done, hd]
    simp only [Handshake.step, hk, Handshake.stepPoll, if_neg hdown]
  · exact goto_some (by simp [ClientPc.pollOf]) hothers

theorem Follows.pollStore (h : Follows n s k) {w : ℕ} (hpc : s.clients t = .pollStore n w) :
    ∃ k', Handshake.step k .goPoll = some k' ∧
      Follows n { s.goto t (.pollCheck n w) with
        recs := s.recs.onCompletion n fun c => { c with waker := some w } } k' := by
  have ht : (s.clients t).pollOf n = some (.store w) := by simp [hpc, ClientPc.pollOf]
  obtain ⟨hk, hb, hlt, hothers⟩ := h.polling ht
  have hself := s.recs.completionOf_onCompletion_self hlt fun c => { c with waker := some w }
  refine ⟨{ k with waker := some w, poll := .check w }, ?_, ?_, ?_, h.signal, h.polls, h.woken,
    .inr ⟨?_, ?_, ?_⟩⟩
  · simp only [Handshake.step, hk, Handshake.stepPoll]
  · simp only [hself, h.done]
  · simp only [hself]
  · simp only [hself, hb]
  · simpa using hlt
  · exact goto_some (by simp [ClientPc.pollOf]) hothers

theorem Follows.pollCheck (h : Follows n s k) {w : ℕ} (hpc : s.clients t = .pollCheck n w) :
    ∃ k', Handshake.step k .goPoll = some k' ∧
      Follows n (s.endPoll t n w (s.recs.completionOf n).done) k' := by
  have ht : (s.clients t).pollOf n = some (.check w) := by simp [hpc, ClientPc.pollOf]
  refine ⟨k.endPoll w k.done, ?_, h.done ▸ h.endPoll ht⟩
  simp only [Handshake.step, (h.polling ht).1, Handshake.stepPoll]

/-- Each step of the log is at most two steps of the machine of record `n`. -/
theorem Follows.step (hs : Sited s) (hk : Handshake.Inv k) (h : Follows n s k) (hst : StepTo maxBatch s l s') :
    ∃ acts k', Machine.runFn Handshake.step k acts = some k' ∧ Follows n s' k' := by
  -- a step on the completion of another record, or on none, is no step of this machine
  have stay : Follows n s' k → ∃ acts k', Machine.runFn Handshake.step k acts = some k' ∧
      Follows n s' k' := fun h' => ⟨[], k, rfl, h'⟩
  have one : ∀ {a}, (∃ k', Handshake.step k a = some k' ∧ Follows n s' k') →
      ∃ acts k', Machine.runFn Handshake.step k acts = some k' ∧ Follows n s' k' :=
    fun {a} ⟨k', hk, hf⟩ => ⟨[a], k', by simp [Machine.runFn, hk], hf⟩
  cases hst with
  | @poll t m w hpc hm hb =>
      by_cases hn : m = n
      · subst hn
        exact one ⟨_, h.poll (hs.owned.pushed_lt m (hs.owned.returned m hm)) hb⟩
      · exact stay (h.frame (s.recs.completionOf_onCompletion_of_ne hn fun c => { c with borrowed := true })
          (by simp) (pollOf_goto (by simp [hpc, ClientPc.pollOf, hn])) Iff.rfl rfl rfl)
  | @pollReady t b m w hpc hd =>
      by_cases hn : m = n
      · subst hn
        exact one (h.pollReady hpc hd)
      · exact stay (h.endPoll_of_ne hn (by simp [hpc, ClientPc.pollOf, hn]))
  | @pollWait t b m w hpc hd =>
      by_cases hn : m = n
      · subst hn
        exact one (h.pollWait hpc hd)
      · exact stay (h.frame rfl le_rfl (pollOf_goto (by simp [hpc, ClientPc.pollOf, hn])) Iff.rfl rfl
          rfl)
  | @pollStore t b m w hpc =>
      by_cases hn : m = n
      · subst hn
        exact one (h.pollStore hpc)
      · exact stay (h.frame (s.recs.completionOf_onCompletion_of_ne hn fun c => { c with waker := some w })
          (by simp) (pollOf_goto (by simp [hpc, ClientPc.pollOf, hn])) Iff.rfl rfl rfl)
  | @pollCheck t b m w hpc =>
      by_cases hn : m = n
      · subst hn
        exact one (h.pollCheck hpc)
      · exact stay (h.endPoll_of_ne hn (by simp [hpc, ClientPc.pollOf, hn]))
  | @signalDone a running m rest hb =>
      by_cases hn : m = n
      · subst hn
        obtain ⟨k', hk, hf⟩ := h.signalDone hb
          (hs.unsignalled_lt (by rw [hb]; exact List.mem_cons_self))
        exact ⟨_, k', hk, hf⟩
      · exact stay (h.frame (s.recs.completionOf_onCompletion_of_ne hn fun c => { c with done := true })
          (by simp) (fun _ => rfl) (by simp [hb, BatcherPc.waking, hn]) rfl rfl)
  | @signalWake a running m rest hb =>
      by_cases hn : m = n
      · subst hn
        exact h.signalWake hb (h.waking_lt hs hk (by rw [hb]; rfl))
      · refine stay (h.frame (s.recs.completionOf_onCompletion_of_ne hn fun c => { c with waker := none })
          (by simp) (fun _ => rfl) ?_ rfl ?_)
        · rw [signalFrom_waking, hb]
          simp [BatcherPc.waking, hn]
        cases (s.recs.completionOf m).waker with
        | none => simp
        | some w => simp [about_append, about_of_ne hn]
  | seqAdd hpc =>
      exact stay (h.frame (completionOf_append_new _ rfl n) (by simp)
        (pollOf_goto (by simp [hpc, ClientPc.pollOf])) Iff.rfl rfl rfl)
  | pushLoad hpc =>
      exact stay (h.frame (by simp) (by simp) (pollOf_goto (by simp [hpc, ClientPc.pollOf])) Iff.rfl
        rfl rfl)
  | append hpc _ | dropStart hpc _ _ | pushOk hpc _ | pushFail hpc | countAdd hpc | dropStore hpc
  | dropJoin hpc _ =>
      exact stay (h.frame rfl le_rfl (pollOf_goto (by simp [hpc, ClientPc.pollOf])) Iff.rfl rfl rfl)
  | windowStay _ => exact stay h
  | loadRunning hb | swapNone hb _ | checkHead hb =>
      refine stay (h.frame rfl le_rfl (fun _ => rfl) ?_ rfl rfl)
      rw [hb]
      dsimp only
      split <;> simp [BatcherPc.waking]
  | collect hb | write hb =>
      refine stay (h.frame rfl le_rfl (fun _ => rfl) ?_ rfl rfl)
      rw [hb]
      simp only [collectFrom_waking, signalFrom_waking]
      rfl
  | windowEnd hb | swapSome hb _ | subCount hb | reserve hb =>
      exact stay (h.frame rfl le_rfl (fun _ => rfl) (by simp [hb, BatcherPc.waking]) rfl rfl)

variable {file : Bytes}

/-- Every run of the log is a run of the handshake of each record. -/
theorem exists_follows (hs : (machine τ file maxBatch).Reachable s) (n : ℕ) :
    ∃ k, (Handshake.machine ℕ).Reachable k ∧ Follows n s k := by
  induction hs with
  | start hinit =>
      cases hinit
      exact ⟨.new, .start rfl, rfl, rfl, rfl, rfl, rfl, .inl ⟨rfl, fun _ => rfl⟩⟩
  | next hr hst ih =>
      obtain ⟨k, hk, hf⟩ := ih
      obtain ⟨acts, k', hrun, hf'⟩ := hf.step (sited_of_reachable hr)
        (Handshake.inv_of_reachable hk) (stepTo_of_step hst)
      exact ⟨k', Machine.reachable_runFn hk hrun, hf'⟩

/-- In the log with all its threads: when the signal of a record has returned and the last poll of the record
has returned `Pending`, its waker was woken. -/
theorem woken_of_signalled (hs : (machine τ file maxBatch).Reachable s)
    (hdone : (s.recs.completionOf n).done = true) (hsignal : s.batcher.waking ≠ some n)
    (hpoll : ∀ t, (s.clients t).pollOf n = none) {w : ℕ}
    (hlast : (about n s.polls).getLast? = some (w, false)) : (n, w) ∈ s.woken := by
  obtain ⟨k, hk, hf⟩ := exists_follows hs n
  have hidle : k.poll = .idle := by
    rcases hf.poller with ⟨hidle, -⟩ | ⟨-, -, t, ht, -⟩
    · exact hidle
    · simp [hpoll t] at ht
  have hsig : k.signal = .idle := by rw [hf.signal, if_neg hsignal]
  have hpos : 0 < k.signals := by
    rcases (Handshake.inv_of_reachable hk).set_iff.mp (hf.done.trans hdone) with hpos | htake | ⟨v, hv⟩
    · exact hpos
    · simp [hsig] at htake
    · simp [hsig] at hv
  rcases (Handshake.inv_of_reachable hk).told hidle w (hf.polls ▸ hlast) with hw | ⟨h0, -⟩
  · rw [hf.woken] at hw
    obtain ⟨x, hx, rfl⟩ := List.mem_map.mp hw
    obtain ⟨hmem, hn⟩ := List.mem_filter.mp hx
    exact (of_decide_eq_true hn) ▸ hmem
  · omega

end Step

end ZeroKv.GroupCommit
