/-
# ZeroKv.Parking.Completion — `ReqCompletion::wait`, and that parking loses no wake.

A client makes a completion for each request, hands it to a worker and waits: it spins on `done` for a while
and then parks until `done` is set.  `fulfill` stores the value, sets `done` and unparks the client.  All
completions of the client share the token of its thread, so the unpark of a completion that was taken in the
spin loop is left over for the next one; unparks from elsewhere come at any time as well, and `park` may return
for no reason.

Nothing is assumed about who fulfills a completion, or how often.  The last section states the result for
`wait` and for `block_on` together.
-/
import ZeroKv.Parking.BlockOn

namespace ZeroKv.Parking

open Park

namespace Completion

abbrev Bytes := List UInt8

/-- The rounds of the spin loop of `wait`. -/
def spin : ℕ := 2000

/-- `ReqCompletion` of this client; `waiter` is always the client. -/
structure Cell where
  done : Bool
  value : Option Bytes

/-- `ReqCompletion::new`. -/
def Cell.new : Cell where
  done := false
  value := none

/-- Where the client is with its completion `n`. -/
inductive Pc
  /-- between two requests -/
  | idle
  /-- the completion is made and is handed to the worker -/
  | made (n : ℕ)
  /-- `wait`: load `done` in round `i` of the spin loop -/
  | spinLoad (n i : ℕ)
  /-- `wait`: load `done` in front of `park` -/
  | load (n : ℕ)
  /-- `wait`: `thread::park()` -/
  | park (n : ℕ)
  /-- `wait`: `value.lock().take()` -/
  | take (n : ℕ)
deriving DecidableEq

/-- The completion that the client is at. -/
def Pc.on : Pc → Option ℕ
  | .idle => none
  | .made n | .spinLoad n _ | .load n | .park n | .take n => some n

/-- Where a caller of `fulfill` is. -/
inductive FulfillPc
  | idle
  /-- `*self.value.lock() = val` -/
  | value (n : ℕ) (val : Option Bytes)
  /-- `self.done.store(true)` -/
  | done (n : ℕ)
  /-- `self.waiter.unpark()` -/
  | unpark (n : ℕ)
deriving DecidableEq

/-- The completions of one client, numbered as they are made, the token of its thread, and the threads.
Completions that are not made yet are as `new` leaves them.  History: the values that calls of `fulfill` have
stored, the calls that have finished, and what `wait` has returned. -/
structure State (τ : Type) where
  made : ℕ
  cells : ℕ → Cell
  token : Bool
  pc : Pc
  workers : τ → FulfillPc
  stored : List (ℕ × Option Bytes)
  finished : List ℕ
  returned : List (ℕ × Option Bytes)

inductive Act (τ : Type)
  /-- The client makes a completion. -/
  | request
  /-- The next step of the client; `spurious` matters to `park` only. -/
  | run (spurious : Bool)
  /-- A call of `fulfill` on completion `n`. -/
  | fulfill (t : τ) (n : ℕ) (val : Option Bytes)
  /-- The next step of a call of `fulfill`. -/
  | go (t : τ)
  /-- An unpark from elsewhere. -/
  | stray

def State.new (τ : Type) (token : Bool) : State τ where
  made := 0
  cells := fun _ => .new
  token := token
  pc := .idle
  workers := fun _ => .idle
  stored := []
  finished := []
  returned := []

section Step

variable {τ : Type}

def State.edit (s : State τ) (n : ℕ) (f : Cell → Cell) : State τ :=
  { s with cells := Function.update s.cells n (f (s.cells n)) }

/-- The client: `wait` on the completion it has made. -/
def stepClient (s : State τ) (spurious : Bool) : Option (State τ) :=
  match s.pc with
  | .idle => none
  | .made n => some { s with pc := .spinLoad n 0 }
  | .spinLoad n i =>
      if (s.cells n).done then some { s with pc := .take n }
      else if i + 1 < spin then some { s with pc := .spinLoad n (i + 1) }
      else some { s with pc := .load n }
  | .load n => some { s with pc := if (s.cells n).done then .take n else .park n }
  | .park n => (park s.token spurious).map fun token => { s with token := token, pc := .load n }
  | .take n =>
      some { s.edit n (fun c => { c with value := none }) with
        pc := .idle
        returned := (n, (s.cells n).value) :: s.returned }

variable [DecidableEq τ]

def State.goto (s : State τ) (t : τ) (pc : FulfillPc) : State τ :=
  { s with workers := Function.update s.workers t pc }

/-- `ReqCompletion::fulfill`. -/
def stepFulfill (s : State τ) (t : τ) : Option (State τ) :=
  match s.workers t with
  | .idle => none
  | .value n val =>
      some { (s.goto t (.done n)).edit n (fun c => { c with value := val }) with
        stored := (n, val) :: s.stored }
  | .done n => some ((s.goto t (.unpark n)).edit n fun c => { c with done := true })
  | .unpark n => some { s.goto t .idle with token := true, finished := n :: s.finished }

def step (s : State τ) : Act τ → Option (State τ)
  | .request =>
      if s.pc = .idle then
        some { s with made := s.made + 1, pc := .made s.made }
      else none
  | .run spurious => stepClient s spurious
  | .fulfill t n val =>
      if s.workers t = .idle ∧ n < s.made then some (s.goto t (.value n val)) else none
  | .go t => stepFulfill s t
  | .stray => some { s with token := true }

end Step

/-- One client, its completions and the threads that fulfill them. -/
def machine (τ : Type) [DecidableEq τ] (token : Bool) : Machine (State τ) (Act τ) :=
  .ofFn (.new τ token) step

/-! ## The flag and the token -/

variable {τ : Type} {s s' : State τ} {l : Act τ} {n m : ℕ}

@[simp] theorem done_edit_value {val : Option Bytes} :
    ((s.edit n fun c => { c with value := val }).cells m).done = (s.cells m).done := by
  by_cases hm : m = n
  · subst hm
    simp [State.edit]
  · simp [State.edit, hm]

@[simp] theorem done_edit_done :
    ((s.edit n fun c => { c with done := true }).cells m).done =
      if m = n then true else (s.cells m).done := by
  by_cases hm : m = n
  · subst hm
    simp [State.edit]
  · simp [State.edit, hm]

/-- What the client does: it goes to another point of the same call, to `take` only when `done` is set and to
`park` only when it is not, or it takes the value and returns. -/
inductive ClientTo (s : State τ) : State τ → Prop
  | goto {pc : Pc} {token : Bool} (hon : pc.on = s.pc.on)
      (htake : ∀ n, pc = .take n → (s.cells n).done = true)
      (hpark : ∀ n, pc = .park n → (s.cells n).done = false) :
      ClientTo s { s with pc := pc, token := token }
  | take {n : ℕ} (hpc : s.pc = .take n) :
      ClientTo s { s.edit n (fun c => { c with value := none }) with
        pc := .idle
        returned := (n, (s.cells n).value) :: s.returned }

theorem clientTo_of_step {spurious : Bool} (hst : stepClient s spurious = some s') : ClientTo s s' := by
  cases hpc : s.pc with
  | idle => simp [stepClient, hpc] at hst
  | made n =>
      simp only [stepClient, hpc, Option.some.injEq] at hst
      subst hst
      exact .goto (by rw [hpc]; rfl) (by simp) (by simp)
  | spinLoad n i =>
      simp only [stepClient, hpc] at hst
      split at hst
      · next hd =>
          cases hst
          exact .goto (by rw [hpc]; rfl) (by rintro m ⟨⟩; exact hd) (by simp)
      · split at hst <;> cases hst <;> exact .goto (by rw [hpc]; rfl) (by simp) (by simp)
  | load n =>
      simp only [stepClient, hpc, Option.some.injEq] at hst
      subst hst
      cases hd : (s.cells n).done with
      | true => exact .goto (by rw [hpc]; rfl) (by rintro m ⟨⟩; exact hd) (by simp)
      | false => exact .goto (by rw [hpc]; rfl) (by simp) (by rintro m ⟨⟩; exact hd)
  | park n =>
      simp only [stepClient, hpc, Option.map_eq_some_iff] at hst
      obtain ⟨token, -, rfl⟩ := hst
      exact .goto (by rw [hpc]; rfl) (by simp) (by simp)
  | take n =>
      simp only [stepClient, hpc, Option.some.injEq] at hst
      subst hst
      exact .take hpc

/-- Some call of `fulfill` has set `done` and has not unparked. -/
def State.Owed (s : State τ) (n : ℕ) : Prop := ∃ t, s.workers t = .unpark n

/-- What `wait` relies on. -/
structure Inv (s : State τ) : Prop where
  owed : ∀ n, s.Owed n → (s.cells n).done = true
  finished : ∀ n ∈ s.finished, (s.cells n).done = true
  guarded : ∀ n, Guarded (s.pc = .park n) (s.cells n).done s.token (s.Owed n) (n ∈ s.finished)

theorem inv_new {token : Bool} : Inv (State.new τ token) where
  owed _ h := by
    obtain ⟨t, ht⟩ := h
    cases ht
  finished _ h := by cases h
  guarded _ := .of_not_parked (by simp [State.new])

theorem Inv.client (h : Inv s) (hst : ClientTo s s') : Inv s' := by
  cases hst with
  | @goto pc token hon htake hpark =>
      refine ⟨h.owed, h.finished, fun n => ?_⟩
      by_cases hpc : pc = .park n
      · exact .check (hpark n hpc) fun hf => by simpa [hpark n hpc] using h.finished n hf
      · exact .of_not_parked hpc
  | take hpc =>
      exact ⟨fun m ho => done_edit_value.trans (h.owed m ho),
        fun m hf => done_edit_value.trans (h.finished m hf), fun m => .of_not_parked (by simp)⟩

variable [DecidableEq τ]

theorem State.Owed.goto {t : τ} {pc : FulfillPc} (h : s.Owed n) (hpc : s.workers t ≠ .unpark n) :
    (s.goto t pc).Owed n :=
  exists_apply_update (p := fun pc : FulfillPc => pc = .unpark n) h hpc

theorem State.Owed.of_goto {t : τ} {pc : FulfillPc} (h : (s.goto t pc).Owed n)
    (hpc : pc ≠ .unpark n) : s.Owed n := by
  obtain ⟨u, hu⟩ := h
  exact ⟨u, of_apply_update (p := fun pc : FulfillPc => pc = .unpark n) (fun hb => absurd hb hpc) hu⟩

/-- A step of a worker up to its store of `value`. -/
theorem Inv.goto {t : τ} (h : Inv s) (pc : FulfillPc) (hdone : ∀ n, (s'.cells n).done = (s.cells n).done)
    (hbefore : ∀ n, s.workers t ≠ .unpark n) (hafter : ∀ n, pc ≠ .unpark n)
    (hworkers : s'.workers = (s.goto t pc).workers) (hfin : s'.finished = s.finished)
    (htoken : s'.token = s.token) (hpc : s'.pc = s.pc) : Inv s' where
  owed n ho := by
    have ho : (s.goto t pc).Owed n := by rwa [State.Owed, hworkers] at ho
    rw [hdone]
    exact h.owed n (ho.of_goto (hafter n))
  finished n hn := by
    rw [hdone]
    exact h.finished n (hfin ▸ hn)
  guarded n := by
    rw [hdone, htoken, hfin, hpc]
    refine (h.guarded n).frame id (fun ho => ?_) id
    rw [State.Owed, hworkers]
    exact ho.goto (hbefore n)

/-- The store of `done`. -/
theorem Inv.setDone {t : τ} (h : Inv s) (hpc : s.workers t = .done n) :
    Inv ((s.goto t (.unpark n)).edit n fun c => { c with done := true }) where
  owed m ho := by
    by_cases hm : m = n
    · simp [hm]
    · rw [done_edit_done, if_neg hm]
      exact h.owed m (State.Owed.of_goto ho (by simp [Ne.symm hm]))
  finished m hf := by
    rw [done_edit_done]
    split
    · rfl
    · exact h.finished m hf
  guarded m := by
    by_cases hm : m = n
    · subst hm
      rw [done_edit_done, if_pos rfl]
      exact (h.guarded m).raise ⟨t, by simp [State.goto, State.edit]⟩ id
    · rw [done_edit_done, if_neg hm]
      exact (h.guarded m).frame id (fun ho => ho.goto (by simp [hpc])) id

theorem Inv.stepFulfill {t : τ} (h : Inv s) (hst : stepFulfill s t = some s') : Inv s' := by
  cases hpc : s.workers t with
  | idle => simp [Completion.stepFulfill, hpc] at hst
  | value n val =>
      simp only [Completion.stepFulfill, hpc, Option.some.injEq] at hst
      subst hst
      exact h.goto (.done n) (fun _ => done_edit_value) (by simp [hpc]) (by simp) rfl rfl rfl rfl
  | done n =>
      simp only [Completion.stepFulfill, hpc, Option.some.injEq] at hst
      subst hst
      exact h.setDone hpc
  | unpark n =>
      simp only [Completion.stepFulfill, hpc, Option.some.injEq] at hst
      subst hst
      refine ⟨fun m ho => h.owed m (State.Owed.of_goto ho (by simp)), ?_, fun m => .unpark⟩
      rintro m (_ | ⟨_, hm⟩)
      · exact h.owed n ⟨t, hpc⟩
      · exact h.finished m hm

theorem Inv.step (h : Inv s) (hst : step s l = some s') : Inv s' := by
  cases l with
  | request =>
      obtain ⟨-, hst⟩ := Option.ite_none_right_eq_some.mp hst
      cases hst
      exact ⟨h.owed, h.finished, fun _ => .of_not_parked (by simp)⟩
  | run spurious => exact h.client (clientTo_of_step hst)
  | fulfill t n val =>
      obtain ⟨⟨hpc, -⟩, hst⟩ := Option.ite_none_right_eq_some.mp hst
      cases hst
      exact h.goto (.value n val) (fun _ => rfl) (by simp [hpc]) (by simp) rfl rfl rfl rfl
  | go t => exact h.stepFulfill hst
  | stray =>
      cases hst
      exact ⟨h.owed, h.finished, fun _ => .unpark⟩

theorem inv_of_reachable {token : Bool} (hs : (machine τ token).Reachable s) : Inv s :=
  hs.invariant (fun _ hinit => hinit ▸ inv_new) fun _ _ _ _ h hst => h.step hst

/-! ## The value -/

/-- Something was stored in completion `n`. -/
def State.Written (s : State τ) (n : ℕ) : Prop := ∃ v, (n, v) ∈ s.stored

/-- The client has taken the value of completion `n`. -/
def State.Taken (s : State τ) (n : ℕ) : Prop := ∃ v, (n, v) ∈ s.returned

/-- What is known of the values: one is there when `done` is set, until the client takes it. -/
structure Data (s : State τ) : Prop where
  current : ∀ n, s.pc.on = some n → n < s.made ∧ ¬ s.Taken n
  taking : ∀ n, s.pc = .take n → (s.cells n).done = true
  taken_lt : ∀ n, s.Taken n → n < s.made
  returned : ∀ x ∈ s.returned, x ∈ s.stored
  done : ∀ n, (s.cells n).done = true → s.Written n
  worker : ∀ t n, s.workers t = .done n → s.Written n
  value : ∀ n, ¬ s.Taken n → s.Written n → (n, (s.cells n).value) ∈ s.stored

omit [DecidableEq τ] in
theorem data_new {token : Bool} : Data (State.new τ token) where
  current _ h := by cases h
  taking _ h := by cases h
  taken_lt _ h := by
    obtain ⟨v, hv⟩ := h
    cases hv
  returned _ h := by cases h
  done _ h := by cases h
  worker _ _ h := by cases h
  value _ _ h := by
    obtain ⟨v, hv⟩ := h
    cases hv

omit [DecidableEq τ] in
theorem Data.client (h : Data s) (hst : ClientTo s s') : Data s' := by
  cases hst with
  | goto hon htake hpark =>
      exact ⟨fun n hn => h.current n (hon ▸ hn), htake, h.taken_lt, h.returned, h.done, h.worker,
        h.value⟩
  | @take n hpc =>
      obtain ⟨hlt, hnot⟩ := h.current n (by rw [hpc]; rfl)
      have hwritten := h.done n (h.taking n hpc)
      refine ⟨fun _ hn => (by cases hn), fun _ hn => (by cases hn), ?_, ?_, fun m hm => ?_, h.worker,
        ?_⟩
      · rintro m ⟨v, hv⟩
        rcases List.mem_cons.mp hv with he | hv
        · cases he
          exact hlt
        · exact h.taken_lt m ⟨v, hv⟩
      · intro x hx
        rcases List.mem_cons.mp hx with rfl | hx
        · exact h.value n hnot hwritten
        · exact h.returned x hx
      · exact h.done m (done_edit_value.symm.trans hm)
      · intro m hm hw
        have hmn : m ≠ n := by
          rintro rfl
          exact hm ⟨_, List.mem_cons_self⟩
        have hold := h.value m (fun ⟨v, hv⟩ => hm ⟨v, List.mem_cons_of_mem _ hv⟩) hw
        simpa [State.edit, hmn] using hold

/-- A worker that was elsewhere is not in front of the store of `done`. -/
theorem workers_goto {t u : τ} {pc : FulfillPc} (hpc : pc ≠ .done n)
    (hu : (s.goto t pc).workers u = .done n) : s.workers u = .done n :=
  of_apply_update (p := fun pc : FulfillPc => pc = .done n) (fun hb => absurd hb hpc) hu

/-- A worker stores its value. -/
theorem Data.store {t : τ} {val : Option Bytes} (h : Data s) :
    Data { (s.goto t (.done n)).edit n (fun c => { c with value := val }) with
      stored := (n, val) :: s.stored } := by
  have hkeep : ∀ m, s.Written m → ∃ v, (m, v) ∈ (n, val) :: s.stored :=
    fun m ⟨v, hv⟩ => ⟨v, List.mem_cons_of_mem _ hv⟩
  refine ⟨h.current, fun m hm => done_edit_value.trans (h.taking m hm), h.taken_lt,
    fun x hx => List.mem_cons_of_mem _ (h.returned x hx),
    fun m hm => hkeep m (h.done m (done_edit_value.symm.trans hm)), fun u m hu => ?_,
    fun m hm hw => ?_⟩
  · by_cases hmn : m = n
    · exact ⟨val, hmn ▸ List.mem_cons_self⟩
    · exact hkeep m (h.worker u m (workers_goto (by simp [Ne.symm hmn]) hu))
  · by_cases hmn : m = n
    · subst hmn
      simp [State.edit]
    · obtain ⟨v, hv⟩ := hw
      have hold : s.Written m := ⟨v, (List.mem_cons.mp hv).resolve_left (by simp [hmn])⟩
      have hval := h.value m hm hold
      exact List.mem_cons_of_mem _ (by simpa [State.edit, State.goto, hmn] using hval)

/-- A worker sets `done`. -/
theorem Data.setDone {t : τ} (h : Data s) (hpc : s.workers t = .done n) :
    Data ((s.goto t (.unpark n)).edit n fun c => { c with done := true }) := by
  refine ⟨h.current, fun m hm => ?_, h.taken_lt, h.returned, fun m hm => ?_,
    fun u m hu => h.worker u m (workers_goto (by simp) hu), fun m hm hw => ?_⟩
  · rw [done_edit_done]
    split
    · rfl
    · exact h.taking m hm
  · by_cases hmn : m = n
    · exact hmn ▸ h.worker t n hpc
    · rw [done_edit_done, if_neg hmn] at hm
      exact h.done m hm
  · have hval := h.value m hm hw
    by_cases hmn : m = n
    · subst hmn
      simpa [State.edit, State.goto] using hval
    · simpa [State.edit, State.goto, hmn] using hval

theorem Data.stepFulfill {t : τ} (h : Data s) (hst : stepFulfill s t = some s') : Data s' := by
  cases hpc : s.workers t with
  | idle => simp [Completion.stepFulfill, hpc] at hst
  | value n val =>
      simp only [Completion.stepFulfill, hpc, Option.some.injEq] at hst
      exact hst ▸ h.store
  | done n =>
      simp only [Completion.stepFulfill, hpc, Option.some.injEq] at hst
      exact hst ▸ h.setDone hpc
  | unpark n =>
      simp only [Completion.stepFulfill, hpc, Option.some.injEq] at hst
      subst hst
      exact ⟨h.current, h.taking, h.taken_lt, h.returned, h.done,
        fun u m hu => h.worker u m (workers_goto (by simp) hu), h.value⟩

theorem Data.step (h : Data s) (hst : step s l = some s') : Data s' := by
  cases l with
  | request =>
      obtain ⟨-, hst⟩ := Option.ite_none_right_eq_some.mp hst
      cases hst
      refine ⟨?_, fun _ hn => (by cases hn), fun n hn => Nat.lt_succ_of_lt (h.taken_lt n hn),
        h.returned, h.done, h.worker, h.value⟩
      rintro n ⟨⟩
      exact ⟨Nat.lt_succ_self _, fun hn => absurd (h.taken_lt _ hn) (Nat.lt_irrefl _)⟩
  | run spurious => exact h.client (clientTo_of_step hst)
  | fulfill t n val =>
      obtain ⟨-, hst⟩ := Option.ite_none_right_eq_some.mp hst
      cases hst
      exact ⟨h.current, h.taking, h.taken_lt, h.returned, h.done,
        fun u m hu => h.worker u m (workers_goto (by simp) hu), h.value⟩
  | go t => exact h.stepFulfill hst
  | stray =>
      cases hst
      exact ⟨h.current, h.taking, h.taken_lt, h.returned, h.done, h.worker, h.value⟩

theorem data_of_reachable {token : Bool} (hs : (machine τ token).Reachable s) : Data s :=
  hs.invariant (fun _ hinit => hinit ▸ data_new) fun _ _ _ _ h hst => h.step hst

/-! ## The return -/

/-- Steps of the client until `wait` returns, once `done` is set and the token is there. -/
def Pc.left : Pc → ℕ
  | .idle => 0
  | .take _ => 1
  | .spinLoad _ _ | .load _ => 2
  | .made _ | .park _ => 3

/-- A step of the client. -/
def Act.isRun : Act τ → Bool
  | .run _ => true
  | _ => false

omit [DecidableEq τ] in
theorem Pc.left_le (pc : Pc) : pc.left ≤ 3 := by cases pc <;> simp [Pc.left]

omit [DecidableEq τ] in
/-- Once a call of `fulfill` has finished, the client can take its next step, and it returns or comes
nearer to it. -/
theorem Inv.advance (h : Inv s) (hon : s.pc.on = some n) (hfin : n ∈ s.finished) (spurious : Bool) :
    ∃ s', Completion.stepClient s spurious = some s' ∧
      (s'.Taken n ∨ s'.pc.on = some n ∧ s'.finished = s.finished ∧ s'.pc.left < s.pc.left) := by
  have hdone := h.finished n hfin
  cases hpc : s.pc with
  | idle => simp [hpc, Pc.on] at hon
  | made m =>
      obtain rfl : m = n := by simpa [hpc, Pc.on] using hon
      refine ⟨{ s with pc := .spinLoad m 0 }, ?_, .inr ⟨rfl, rfl, by simp [Pc.left]⟩⟩
      simp [Completion.stepClient, hpc]
  | spinLoad m i | load m =>
      obtain rfl : m = n := by simpa [hpc, Pc.on] using hon
      refine ⟨{ s with pc := .take m }, ?_, .inr ⟨rfl, rfl, by simp [Pc.left]⟩⟩
      simp [Completion.stepClient, hpc, hdone]
  | park m =>
      obtain rfl : m = n := by simpa [hpc, Pc.on] using hon
      have htoken := (h.guarded m).token_of_done hpc hfin
      obtain ⟨token, hpark⟩ := park_of_token spurious
      refine ⟨{ s with token := token, pc := .load m }, ?_, .inr ⟨rfl, rfl, by simp [Pc.left]⟩⟩
      simp [Completion.stepClient, hpc, htoken, hpark]
  | take m =>
      obtain rfl : m = n := by simpa [hpc, Pc.on] using hon
      exact ⟨_, by rw [Completion.stepClient, hpc], .inl ⟨_, List.mem_cons_self⟩⟩

/-- The others leave a client that is inside a call where it is. -/
theorem step_other (hst : step s l = some s') (hl : l.isRun = false) (hon : s.pc.on = some n) :
    s'.pc = s.pc ∧ s.finished ⊆ s'.finished := by
  cases l with
  | request =>
      obtain ⟨hpc, -⟩ := Option.ite_none_right_eq_some.mp hst
      simp [hpc, Pc.on] at hon
  | run spurious => cases hl
  | fulfill t m val =>
      obtain ⟨-, hst⟩ := Option.ite_none_right_eq_some.mp hst
      cases hst
      exact ⟨rfl, List.Subset.refl _⟩
  | go t =>
      simp only [Completion.step, Completion.stepFulfill] at hst
      split at hst <;> cases hst
      · exact ⟨rfl, List.Subset.refl _⟩
      · exact ⟨rfl, List.Subset.refl _⟩
      · exact ⟨rfl, List.subset_cons_self _ _⟩
  | stray =>
      cases hst
      exact ⟨rfl, List.Subset.refl _⟩

theorem State.Taken.step (h : s.Taken n) (hst : step s l = some s') : s'.Taken n := by
  obtain ⟨v, hv⟩ := h
  cases l with
  | request | fulfill t m val =>
      obtain ⟨-, hst⟩ := Option.ite_none_right_eq_some.mp hst
      cases hst
      exact ⟨v, hv⟩
  | run spurious =>
      cases clientTo_of_step hst with
      | goto => exact ⟨v, hv⟩
      | take => exact ⟨v, List.mem_cons_of_mem _ hv⟩
  | go t =>
      simp only [Completion.step, Completion.stepFulfill] at hst
      split at hst <;> cases hst <;> exact ⟨v, hv⟩
  | stray =>
      cases hst
      exact ⟨v, hv⟩

theorem State.Taken.run {ls : List (Act τ)} (h : s.Taken n)
    (hrun : Machine.runFn Completion.step s ls = some s') : s'.Taken n := by
  induction ls generalizing s with
  | nil =>
      cases hrun
      exact h
  | cons l ls ih =>
      obtain ⟨u, hu, hrest⟩ := Option.bind_eq_some_iff.mp hrun
      exact ih (h.step hu) hrest

/-- Whatever the others do, the client has returned when it has taken the steps that are left. -/
theorem Inv.returns {ls : List (Act τ)} (h : Inv s) (hon : s.pc.on = some n) (hfin : n ∈ s.finished)
    (hrun : Machine.runFn Completion.step s ls = some s') (hcount : s.pc.left ≤ ls.countP Act.isRun) :
    s'.Taken n := by
  induction ls generalizing s with
  | nil =>
      cases hpc : s.pc with
      | idle => simp [hpc, Pc.on] at hon
      | _ => simp [hpc, Pc.left] at hcount
  | cons l ls ih =>
      obtain ⟨u, hu, hrest⟩ := Option.bind_eq_some_iff.mp hrun
      cases hl : l.isRun with
      | false =>
          obtain ⟨hpc, hsub⟩ := step_other hu hl hon
          rw [List.countP_cons_of_neg (by simp [hl])] at hcount
          exact ih (h.step hu) (hpc ▸ hon) (hsub hfin) hrest (hpc ▸ hcount)
      | true =>
          cases l with
          | run spurious =>
              obtain ⟨v, hv, hnext⟩ := h.advance hon hfin spurious
              obtain rfl : v = u := Option.some.inj (hv.symm.trans hu)
              rw [List.countP_cons_of_pos hl] at hcount
              rcases hnext with htaken | ⟨hon', hfin', hlt⟩
              · exact htaken.run hrest
              · exact ih (h.step hu) hon' (hfin' ▸ hfin) hrest (by omega)
          | _ => cases hl

end Completion

/-! ## No wake is lost -/

/-- **Parking loses no wake.**  `block_on`: when it is blocked in `park` and the flag is up, a waker that
raised it since the last swap has yet to unpark; and every waker that has finished began before the last poll
started.  `ReqCompletion::wait`: it is not blocked in `park` once a call of `fulfill` on its completion has
finished; what it has returned is what a call of `fulfill` on that completion has stored; and once such a call
has finished, the client is always able to go on, and has returned when it has taken three more steps,
whatever the others do in between. -/
theorem parking_loses_no_wake (τ : Type) [DecidableEq τ] (token : Bool) :
    (∀ s : BlockOn.State τ, (BlockOn.machine τ token).Reachable s → s.Blocked →
      (s.awake = true → ∃ t began, s.wakers t = .unpark began s.swaps) ∧
      ∀ began ∈ s.finished, began < s.polls) ∧
    ∀ s : Completion.State τ, (Completion.machine τ token).Reachable s →
      (∀ n, s.pc = .park n → s.token = false → n ∉ s.finished) ∧
      (∀ n v, (n, v) ∈ s.returned → (n, v) ∈ s.stored) ∧
      ∀ n, s.pc.on = some n → n ∈ s.finished →
        (∀ spurious, ∃ s', Completion.step s (.run spurious) = some s') ∧
        ∀ ls s', Machine.runFn Completion.step s ls = some s' →
          3 ≤ ls.countP Completion.Act.isRun → ∃ v, (n, v) ∈ s'.returned := by
  refine ⟨fun s hs hblocked => ?_, fun s hs => ?_⟩
  · have hinv := BlockOn.inv_of_reachable hs
    obtain ⟨hpc, htoken⟩ := hblocked
    refine ⟨fun hawake => hinv.guarded.owed_of_flag hpc hawake htoken, fun began hb => ?_⟩
    refine Nat.lt_of_le_of_ne (hinv.finished_le began hb) ?_
    rintro rfl
    simpa [htoken] using hinv.guarded.token_of_done hpc hb
  · have hinv := Completion.inv_of_reachable hs
    refine ⟨fun n hpc htoken hfin => ?_, fun n v => (Completion.data_of_reachable hs).returned (n, v),
      fun n hon hfin => ⟨fun spurious => ?_, fun ls s' hrun hcount => ?_⟩⟩
    · simpa [htoken] using (hinv.guarded n).token_of_done hpc hfin
    · obtain ⟨s', hst, -⟩ := hinv.advance hon hfin spurious
      exact ⟨s', hst⟩
    · exact hinv.returns hon hfin hrun (Nat.le_trans s.pc.left_le hcount)

/-- `block_on` has polled once, has found the flag clear and is parked, when a waker raises the flag. -/
def midWake : List (BlockOn.Act Unit) :=
  [.run false, .run false, .answer false, .run false, .wake (), .go ()]

/-- A request that is fulfilled in the spin loop of its client. -/
def midSpin : List (Completion.Act Unit) :=
  [.request, .run false, .run false, .fulfill () 0 (some [1]), .go (), .go (), .go ()]

/-- The client takes the value, with the token of the unpark left over, and makes the next request. -/
def afterSpin : List (Completion.Act Unit) := [.run false, .run false, .request, .run false]

theorem parking_loses_no_wake_runs :
    (∃ s, Machine.runFn BlockOn.step (.new Unit false) midWake = some s ∧ s.Blocked ∧
      s.awake = true ∧ ∃ t began, s.wakers t = .unpark began s.swaps) ∧
    ∃ s s', Machine.runFn Completion.step (.new Unit false) midSpin = some s ∧ 0 ∈ s.finished ∧
      Machine.runFn Completion.step s afterSpin = some s' ∧ s'.token = true ∧
      ∃ v, (0, v) ∈ s'.returned := by
  obtain ⟨hblock, hwait⟩ := parking_loses_no_wake Unit false
  constructor
  · obtain ⟨s, hs⟩ : ∃ s, Machine.runFn BlockOn.step (.new Unit false) midWake = some s := ⟨_, rfl⟩
    have hblocked : s.Blocked ∧ s.awake = true := by
      cases hs
      exact ⟨⟨rfl, rfl⟩, rfl⟩
    exact ⟨s, hs, hblocked.1, hblocked.2,
      (hblock s (Machine.reachable_of_runFn hs) hblocked.1).1 hblocked.2⟩
  · obtain ⟨s, hs⟩ : ∃ s, Machine.runFn Completion.step (.new Unit false) midSpin = some s := ⟨_, rfl⟩
    obtain ⟨s', hs'⟩ : ∃ s', Machine.runFn Completion.step s afterSpin = some s' := by
      cases hs
      exact ⟨_, rfl⟩
    have hat : s.pc.on = some 0 ∧ 0 ∈ s.finished ∧ s'.token = true := by
      cases hs
      cases hs'
      exact ⟨rfl, List.mem_cons_self, rfl⟩
    obtain ⟨-, -, hreturn⟩ := hwait s (Machine.reachable_of_runFn hs)
    exact ⟨s, s', hs, hat.2.1, hs', hat.2.2, (hreturn 0 hat.1 hat.2.1).2 afterSpin s' hs' (by decide)⟩

end ZeroKv.Parking
