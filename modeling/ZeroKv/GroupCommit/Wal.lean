/-
# ZeroKv.GroupCommit.Wal — the group-commit log, one atomic access at a time.

`group_commit.rs` has writers that push records on a Treiber stack and one Batcher thread that
detaches the whole stack, sorts it by sequence number, reserves a file range and hands the batch to
one vectored write.  Every load, store, swap, compare-exchange and fetch-add of `append`, of
`CommitFuture::poll`, of `drop` and of `batcher_loop` is one step here.

A record is an index into `recs`, given out when its sequence number is taken; the `Completion` it
shares with its future is a field of it.  `seq` and `offset` are natural numbers, which agree with the
words of the source up to `2 ^ 64` records and bytes (`counters_lt`); `pendingCount` is the 64-bit word
it is in the source, because the Batcher subtracts before a writer may have added.
Addresses are not reused: a compare-exchange that succeeds on a recycled address has linked the
record to the present top of the stack, which is what reloading the head would have done.

`returned`, `pushed`, `committed`, `polls` and `woken` are history variables.
-/
import ZeroKv.Lib.Chain
import ZeroKv.Lib.File
import ZeroKv.Lib.Machine
import ZeroKv.Lib.Word
import Mathlib.Data.List.Sort
import Mathlib.Data.UInt

namespace ZeroKv.GroupCommit

/-- Bytes of a record or of the file. -/
abbrev Bytes := List UInt8

/-- `Completion`.  `borrowed` holds while a poll has the future: `poll` takes it by `&mut`. -/
structure Completion where
  done : Bool
  waker : Option ℕ
  borrowed : Bool

/-- `Completion::new`. -/
def Completion.new : Completion := { done := false, waker := none, borrowed := false }

/-- `Pending`. -/
structure Pending where
  seq : ℕ
  data : Bytes
  completion : Completion
  next : Option ℕ

/-- The boxed records, by index. -/
abbrev Heap := List Pending

/-- `Shared`. -/
structure Shared where
  head : Option ℕ
  seq : ℕ
  offset : ℕ
  pendingCount : ℕ
  running : Bool

/-- The registers of a thread that uses the handle or a future. -/
inductive ClientPc
  | idle
  /-- `append`: `seq.fetch_add(1)`, then box the record. -/
  | seqAdd (record : Bytes)
  /-- `append`: load the head and link the record to it. -/
  | pushLoad (n : ℕ)
  /-- `append`: try to publish the record. -/
  | pushCas (n : ℕ) (head : Option ℕ)
  /-- `append`: `pending_count.fetch_add(1)`. -/
  | countAdd (n : ℕ)
  /-- `poll`: first load of `done`. -/
  | pollLoad (n waker : ℕ)
  /-- `poll`: store the waker under its lock. -/
  | pollStore (n waker : ℕ)
  /-- `poll`: second load of `done`. -/
  | pollCheck (n waker : ℕ)
  /-- `drop`: store `running`. -/
  | dropStore
  /-- `drop`: join the Batcher. -/
  | dropJoin
deriving DecidableEq

/-- The registers of the Batcher.  `running` is what it loaded at the top of the loop. -/
inductive BatcherPc
  | loadRunning
  /-- Wait out the window. -/
  | window
  /-- Detach the stack. -/
  | swap (running : Bool)
  /-- Move record `n` of the detached chain into the batch. -/
  | collect (running : Bool) (n : ℕ) (batch : List ℕ)
  /-- `pending_count.fetch_sub(batch.len())`. -/
  | subCount (running : Bool) (batch : List ℕ)
  /-- Sort the batch and reserve its range of the file. -/
  | reserve (running : Bool) (batch : List ℕ)
  /-- `write_vectored` of the sorted batch at `off`. -/
  | write (running : Bool) (batch : List ℕ) (off : ℕ)
  /-- `signal` of record `n`: store `done`. -/
  | signalDone (running : Bool) (n : ℕ) (rest : List ℕ)
  /-- `signal` of record `n`: take the waker and wake it. -/
  | signalWake (running : Bool) (n : ℕ) (rest : List ℕ)
  /-- The last look at the head when shutting down. -/
  | checkHead
  | exited
deriving DecidableEq

/-- The whole system.  `alive` holds until `drop` begins, `borrowers` are the threads inside an
`append`, which hold the handle by `&self` and so keep `drop` from beginning. -/
structure State (τ : Type) where
  shared : Shared
  recs : Heap
  file : Bytes
  clients : τ → ClientPc
  batcher : BatcherPc
  alive : Bool
  borrowers : List τ
  /-- Records whose `append` has returned. -/
  returned : List ℕ
  /-- Records that were published, latest first. -/
  pushed : List ℕ
  /-- Batches handed to `write_vectored`, in order. -/
  committed : List (List ℕ)
  /-- Finished polls: record, waker, and whether the answer was `Ready`. -/
  polls : List (ℕ × ℕ × Bool)
  /-- Calls of `wake`: record and waker. -/
  woken : List (ℕ × ℕ)

/-- What a client may do next.  The flag of `run` is only looked at by `compare_exchange_weak`,
which fails spuriously when it is `false`. -/
inductive ClientAct
  | append (record : Bytes)
  | poll (n waker : ℕ)
  | drop
  | run (strong : Bool)

/-- How the next step of the Batcher turns out.  `deadline` ends the window; `fail n` is a write that
returns an error after `n` bytes of the batch. -/
inductive BatcherAct
  | run
  | deadline
  | fail (n : ℕ)

inductive Label (τ : Type)
  | client (t : τ) (a : ClientAct)
  | batcher (a : BatcherAct)

variable {τ : Type}

/-! ## The heap of records -/

namespace Heap

/-- The `next` field of a record. -/
def nextOf (h : Heap) (n : ℕ) : Option ℕ := (h[n]?).bind Pending.next

/-- The sequence number of a record. -/
def seqOf (h : Heap) (n : ℕ) : ℕ := ((h[n]?).map Pending.seq).getD 0

/-- The bytes of a record. -/
def dataOf (h : Heap) (n : ℕ) : Bytes := ((h[n]?).map Pending.data).getD []

/-- The completion of a record. -/
def completionOf (h : Heap) (n : ℕ) : Completion := ((h[n]?).map Pending.completion).getD .new

/-- The bytes of a batch, record after record. -/
def bytes (h : Heap) (batch : List ℕ) : Bytes := batch.flatMap h.dataOf

/-- Write the `next` field of a record. -/
def setNext (h : Heap) (n : ℕ) (next : Option ℕ) : Heap :=
  h.modify n fun p => { p with next := next }

/-- Change the completion of a record. -/
def onCompletion (h : Heap) (n : ℕ) (f : Completion → Completion) : Heap :=
  h.modify n fun p => { p with completion := f p.completion }

/-- `sort_unstable_by_key` on the sequence number. -/
def sortBySeq (h : Heap) (batch : List ℕ) : List ℕ :=
  batch.insertionSort fun m n => h.seqOf m ≤ h.seqOf n

section

variable (h : Heap)

/-- A reading that a write leaves alone is the same afterwards. -/
theorem read_modify {β : Type} (g : Option Pending → β) (f : Pending → Pending)
    (hf : ∀ p, g (some (f p)) = g (some p)) (n m : ℕ) : g (h.modify n f)[m]? = g h[m]? := by
  rw [List.getElem?_modify]
  cases h[m]? with
  | none => rfl
  | some p => by_cases hn : n = m <;> simp [hn, hf]

@[simp] theorem length_setNext (n : ℕ) (x : Option ℕ) : (h.setNext n x).length = h.length :=
  List.length_modify ..

@[simp] theorem length_onCompletion (n : ℕ) (f : Completion → Completion) :
    (h.onCompletion n f).length = h.length :=
  List.length_modify ..

@[simp] theorem seqOf_setNext (n : ℕ) (x : Option ℕ) : (h.setNext n x).seqOf = h.seqOf :=
  funext fun m => h.read_modify (fun o => (o.map Pending.seq).getD 0)
    (fun p => { p with next := x }) (fun _ => rfl) n m

@[simp] theorem dataOf_setNext (n : ℕ) (x : Option ℕ) : (h.setNext n x).dataOf = h.dataOf :=
  funext fun m => h.read_modify (fun o => (o.map Pending.data).getD [])
    (fun p => { p with next := x }) (fun _ => rfl) n m

@[simp] theorem completionOf_setNext (n : ℕ) (x : Option ℕ) :
    (h.setNext n x).completionOf = h.completionOf :=
  funext fun m => h.read_modify (fun o => (o.map Pending.completion).getD .new)
    (fun p => { p with next := x }) (fun _ => rfl) n m

@[simp] theorem seqOf_onCompletion (n : ℕ) (f : Completion → Completion) :
    (h.onCompletion n f).seqOf = h.seqOf :=
  funext fun m => h.read_modify (fun o => (o.map Pending.seq).getD 0)
    (fun p => { p with completion := f p.completion }) (fun _ => rfl) n m

@[simp] theorem dataOf_onCompletion (n : ℕ) (f : Completion → Completion) :
    (h.onCompletion n f).dataOf = h.dataOf :=
  funext fun m => h.read_modify (fun o => (o.map Pending.data).getD [])
    (fun p => { p with completion := f p.completion }) (fun _ => rfl) n m

@[simp] theorem nextOf_onCompletion (n : ℕ) (f : Completion → Completion) :
    (h.onCompletion n f).nextOf = h.nextOf :=
  funext fun m => h.read_modify (fun o => o.bind Pending.next)
    (fun p => { p with completion := f p.completion }) (fun _ => rfl) n m

@[simp] theorem bytes_setNext (n : ℕ) (x : Option ℕ) : (h.setNext n x).bytes = h.bytes := by
  funext b
  simp [bytes]

@[simp] theorem bytes_onCompletion (n : ℕ) (f : Completion → Completion) :
    (h.onCompletion n f).bytes = h.bytes := by
  funext b
  simp [bytes]

theorem nextOf_setNext_self {n : ℕ} (hn : n < h.length) (x : Option ℕ) :
    (h.setNext n x).nextOf n = x := by
  simp [nextOf, setNext, hn]

theorem nextOf_setNext_of_ne {n m : ℕ} (hn : n ≠ m) (x : Option ℕ) :
    (h.setNext n x).nextOf m = h.nextOf m := by
  simp [nextOf, setNext, hn]

theorem completionOf_onCompletion_self {n : ℕ} (hn : n < h.length) (f : Completion → Completion) :
    (h.onCompletion n f).completionOf n = f (h.completionOf n) := by
  simp [completionOf, onCompletion, hn]

theorem completionOf_onCompletion_of_ne {n m : ℕ} (hn : n ≠ m) (f : Completion → Completion) :
    (h.onCompletion n f).completionOf m = h.completionOf m := by
  simp [completionOf, onCompletion, hn]

/-- A change that leaves `done` alone. -/
theorem done_onCompletion (f : Completion → Completion) (hf : ∀ c, (f c).done = c.done) (n m : ℕ) :
    ((h.onCompletion n f).completionOf m).done = (h.completionOf m).done := by
  by_cases hn : n = m
  · subst hn
    cases hq : h[n]? <;> simp [completionOf, onCompletion, hq, hf]
  · rw [h.completionOf_onCompletion_of_ne hn]

@[simp] theorem done_setBorrowed (n m : ℕ) (b : Bool) :
    ((h.onCompletion n fun c => { c with borrowed := b }).completionOf m).done =
      (h.completionOf m).done :=
  h.done_onCompletion (fun c => { c with borrowed := b }) (fun _ => rfl) n m

@[simp] theorem done_setWaker (n m : ℕ) (w : Option ℕ) :
    ((h.onCompletion n fun c => { c with waker := w }).completionOf m).done =
      (h.completionOf m).done :=
  h.done_onCompletion (fun c => { c with waker := w }) (fun _ => rfl) n m

variable {p : Pending} {n : ℕ}

theorem nextOf_append (hn : n < h.length) : nextOf (h ++ [p]) n = h.nextOf n := by
  simp [nextOf, List.getElem?_append_left hn]

theorem seqOf_append (hn : n < h.length) : seqOf (h ++ [p]) n = h.seqOf n := by
  simp [seqOf, List.getElem?_append_left hn]

theorem seqOf_append_self : seqOf (h ++ [p]) h.length = p.seq := by
  simp [seqOf]

theorem dataOf_append (hn : n < h.length) : dataOf (h ++ [p]) n = h.dataOf n := by
  simp [dataOf, List.getElem?_append_left hn]

theorem completionOf_append (hn : n < h.length) :
    completionOf (h ++ [p]) n = h.completionOf n := by
  simp [completionOf, List.getElem?_append_left hn]

theorem bytes_append {b : List ℕ} (hb : ∀ n ∈ b, n < h.length) :
    bytes (h ++ [p]) b = h.bytes b :=
  List.flatMap_congr fun n hn => h.dataOf_append (hb n hn)

end

end Heap

/-- What `write_vectored` writes of the bytes it is given. -/
def written (a : BatcherAct) (data : Bytes) : Bytes :=
  match a with
  | .fail n => data.take n
  | _ => data

/-- The loop over the detached chain. -/
def collectFrom (running : Bool) (batch : List ℕ) : Option ℕ → BatcherPc
  | none => .subCount running batch
  | some n => .collect running n batch

/-- The loop over the batch that signals, and what comes after it. -/
def signalFrom (running : Bool) : List ℕ → BatcherPc
  | [] => if running then .loadRunning else .checkHead
  | n :: rest => .signalDone running n rest

/-! ## Steps -/

section Step

variable [DecidableEq τ]

/-- Move client `t` to another program point. -/
def State.goto (s : State τ) (t : τ) (pc : ClientPc) : State τ :=
  { s with clients := Function.update s.clients t pc }

/-- A poll of record `n` by client `t` returns. -/
def State.endPoll (s : State τ) (t : τ) (n waker : ℕ) (ready : Bool) : State τ :=
  { s.goto t .idle with
    recs := s.recs.onCompletion n fun c => { c with borrowed := false }
    polls := s.polls ++ [(n, waker, ready)] }

/-- The next access of the call client `t` is in. -/
def stepRun (s : State τ) (t : τ) (strong : Bool) : Option (State τ) :=
  match s.clients t with
  | .idle => none
  | .seqAdd record =>
      some { s.goto t (.pushLoad s.recs.length) with
        shared := { s.shared with seq := s.shared.seq + 1 }
        recs := s.recs ++
          [{ seq := s.shared.seq, data := record, completion := .new, next := none }] }
  | .pushLoad n =>
      some { s.goto t (.pushCas n s.shared.head) with
        recs := s.recs.setNext n s.shared.head }
  | .pushCas n head =>
      if strong = true ∧ s.shared.head = head then
        some { s.goto t (.countAdd n) with
          shared := { s.shared with head := some n }
          pushed := n :: s.pushed }
      else some (s.goto t (.pushLoad n))
  | .countAdd n =>
      some { s.goto t .idle with
        shared := { s.shared with pendingCount := wrappingAdd 64 s.shared.pendingCount 1 }
        borrowers := s.borrowers.filter (· ≠ t)
        returned := n :: s.returned }
  | .pollLoad n w =>
      if (s.recs.completionOf n).done then some (s.endPoll t n w true)
      else some (s.goto t (.pollStore n w))
  | .pollStore n w =>
      some { s.goto t (.pollCheck n w) with
        recs := s.recs.onCompletion n fun c => { c with waker := some w } }
  | .pollCheck n w => some (s.endPoll t n w (s.recs.completionOf n).done)
  | .dropStore =>
      some { s.goto t .dropJoin with shared := { s.shared with running := false } }
  | .dropJoin => if s.batcher = .exited then some (s.goto t .idle) else none

/-- A client starts a call or takes the next step of the one it is in. -/
def stepClient (s : State τ) (t : τ) (a : ClientAct) : Option (State τ) :=
  match a with
  | .append record =>
      if s.clients t = .idle ∧ s.alive = true then
        some { s.goto t (.seqAdd record) with borrowers := t :: s.borrowers }
      else none
  | .poll n w =>
      if s.clients t = .idle ∧ n ∈ s.returned ∧ (s.recs.completionOf n).borrowed = false then
        some { s.goto t (.pollLoad n w) with
          recs := s.recs.onCompletion n fun c => { c with borrowed := true } }
      else none
  | .drop =>
      if s.clients t = .idle ∧ s.alive = true ∧ s.borrowers = [] then
        some { s.goto t .dropStore with alive := false }
      else none
  | .run strong => stepRun s t strong

/-- `batcher_loop`.  In the window the clock is read before the depth, so the window may end at any
time; while it has not, the loop goes on as long as fewer than `maxBatch` records are counted. -/
def stepBatcher (maxBatch : ℕ) (s : State τ) (a : BatcherAct) : Option (State τ) :=
  match s.batcher with
  | .loadRunning =>
      some { s with batcher := if s.shared.running then .window else .swap false }
  | .window =>
      match a with
      | .deadline => some { s with batcher := .swap true }
      | _ => if s.shared.pendingCount < maxBatch then some s
             else some { s with batcher := .swap true }
  | .swap running =>
      match s.shared.head with
      -- the flag is the one read at the top of this turn
      | none => some { s with batcher := if running then .loadRunning else .exited }
      | some n => some { s with
          shared := { s.shared with head := none }, batcher := .collect running n [] }
  | .collect running n batch =>
      some { s with batcher := collectFrom running (batch ++ [n]) (s.recs.nextOf n) }
  | .subCount running batch =>
      some { s with
        shared := { s.shared with
          pendingCount := wrappingSub 64 s.shared.pendingCount batch.length }
        batcher := .reserve running batch }
  | .reserve running batch =>
      some { s with
        shared := { s.shared with
          offset := s.shared.offset +
            ((s.recs.sortBySeq batch).map fun n => (s.recs.dataOf n).length).sum }
        batcher := .write running (s.recs.sortBySeq batch) s.shared.offset }
  | .write running batch off =>
      -- the result of the write is thrown away: the batch is signalled either way
      some { s with
        file := pwrite s.file off (written a (s.recs.bytes batch))
        committed := s.committed ++ [batch]
        batcher := signalFrom running batch }
  | .signalDone running n rest =>
      some { s with
        recs := s.recs.onCompletion n fun c => { c with done := true }
        batcher := .signalWake running n rest }
  | .signalWake running n rest =>
      some { s with
        recs := s.recs.onCompletion n fun c => { c with waker := none }
        woken := s.woken ++ ((s.recs.completionOf n).waker.map fun w => (n, w)).toList
        batcher := signalFrom running rest }
  | .checkHead =>
      some { s with batcher := if s.shared.head = none then .exited else .loadRunning }
  | .exited => none

def step (maxBatch : ℕ) (s : State τ) : Label τ → Option (State τ)
  | .client t a => stepClient s t a
  | .batcher a => stepBatcher maxBatch s a

end Step

/-- `file.metadata().map(|m| m.len()).unwrap_or(0)`; asking for the metadata may fail. -/
def startOff (metadata : Option ℕ) : ℕ := metadata.getD 0

/-- `GroupCommitWal::new` over a file with contents `file`.  Asking an open file for its length is taken to
succeed; if it failed the log would start at offset 0 and write over the old contents. -/
def State.new (τ : Type) (file : Bytes) : State τ where
  shared :=
    { head := none, seq := 0, offset := startOff (some file.length), pendingCount := 0, running := true }
  recs := []
  file := file
  clients := fun _ => .idle
  batcher := .loadRunning
  alive := true
  borrowers := []
  returned := []
  pushed := []
  committed := []
  polls := []
  woken := []

/-- The log over `file`, with any number of client threads and any backend. -/
def machine (τ : Type) [DecidableEq τ] (file : Bytes) (maxBatch : ℕ) :
    Machine (State τ) (Label τ) :=
  .ofFn (.new τ file) (step maxBatch)

/-! ## What a step can be -/

variable [DecidableEq τ]

/-- The steps one by one, each with its guard and its effect. -/
inductive StepTo (maxBatch : ℕ) (s : State τ) : Label τ → State τ → Prop
  | append {t record} (hpc : s.clients t = .idle) (hal : s.alive = true) :
      StepTo maxBatch s (.client t (.append record))
        { s.goto t (.seqAdd record) with borrowers := t :: s.borrowers }
  | poll {t n w} (hpc : s.clients t = .idle) (hn : n ∈ s.returned)
      (hb : (s.recs.completionOf n).borrowed = false) :
      StepTo maxBatch s (.client t (.poll n w))
        { s.goto t (.pollLoad n w) with
          recs := s.recs.onCompletion n fun c => { c with borrowed := true } }
  | dropStart {t} (hpc : s.clients t = .idle) (hal : s.alive = true) (hb : s.borrowers = []) :
      StepTo maxBatch s (.client t .drop) { s.goto t .dropStore with alive := false }
  | seqAdd {t b record} (hpc : s.clients t = .seqAdd record) :
      StepTo maxBatch s (.client t (.run b))
        { s.goto t (.pushLoad s.recs.length) with
          shared := { s.shared with seq := s.shared.seq + 1 }
          recs := s.recs ++
            [{ seq := s.shared.seq, data := record, completion := .new, next := none }] }
  | pushLoad {t b n} (hpc : s.clients t = .pushLoad n) :
      StepTo maxBatch s (.client t (.run b))
        { s.goto t (.pushCas n s.shared.head) with recs := s.recs.setNext n s.shared.head }
  | pushOk {t n head} (hpc : s.clients t = .pushCas n head) (hh : s.shared.head = head) :
      StepTo maxBatch s (.client t (.run true))
        { s.goto t (.countAdd n) with
          shared := { s.shared with head := some n }
          pushed := n :: s.pushed }
  | pushFail {t b n head} (hpc : s.clients t = .pushCas n head) :
      StepTo maxBatch s (.client t (.run b)) (s.goto t (.pushLoad n))
  | countAdd {t b n} (hpc : s.clients t = .countAdd n) :
      StepTo maxBatch s (.client t (.run b))
        { s.goto t .idle with
          shared := { s.shared with pendingCount := wrappingAdd 64 s.shared.pendingCount 1 }
          borrowers := s.borrowers.filter (· ≠ t)
          returned := n :: s.returned }
  | pollReady {t b n w} (hpc : s.clients t = .pollLoad n w)
      (hd : (s.recs.completionOf n).done = true) :
      StepTo maxBatch s (.client t (.run b)) (s.endPoll t n w true)
  | pollWait {t b n w} (hpc : s.clients t = .pollLoad n w)
      (hd : (s.recs.completionOf n).done = false) :
      StepTo maxBatch s (.client t (.run b)) (s.goto t (.pollStore n w))
  | pollStore {t b n w} (hpc : s.clients t = .pollStore n w) :
      StepTo maxBatch s (.client t (.run b))
        { s.goto t (.pollCheck n w) with
          recs := s.recs.onCompletion n fun c => { c with waker := some w } }
  | pollCheck {t b n w} (hpc : s.clients t = .pollCheck n w) :
      StepTo maxBatch s (.client t (.run b)) (s.endPoll t n w (s.recs.completionOf n).done)
  | dropStore {t b} (hpc : s.clients t = .dropStore) :
      StepTo maxBatch s (.client t (.run b))
        { s.goto t .dropJoin with shared := { s.shared with running := false } }
  | dropJoin {t b} (hpc : s.clients t = .dropJoin) (he : s.batcher = .exited) :
      StepTo maxBatch s (.client t (.run b)) (s.goto t .idle)
  | loadRunning {a} (hb : s.batcher = .loadRunning) :
      StepTo maxBatch s (.batcher a)
        { s with batcher := if s.shared.running then .window else .swap false }
  | windowStay {a} (hb : s.batcher = .window) : StepTo maxBatch s (.batcher a) s
  | windowEnd {a} (hb : s.batcher = .window) :
      StepTo maxBatch s (.batcher a) { s with batcher := .swap true }
  | swapNone {a running} (hb : s.batcher = .swap running) (hh : s.shared.head = none) :
      StepTo maxBatch s (.batcher a)
        { s with batcher := if running then .loadRunning else .exited }
  | swapSome {a running n} (hb : s.batcher = .swap running) (hh : s.shared.head = some n) :
      StepTo maxBatch s (.batcher a)
        { s with shared := { s.shared with head := none }, batcher := .collect running n [] }
  | collect {a running n batch} (hb : s.batcher = .collect running n batch) :
      StepTo maxBatch s (.batcher a)
        { s with batcher := collectFrom running (batch ++ [n]) (s.recs.nextOf n) }
  | subCount {a running batch} (hb : s.batcher = .subCount running batch) :
      StepTo maxBatch s (.batcher a)
        { s with
          shared := { s.shared with
            pendingCount := wrappingSub 64 s.shared.pendingCount batch.length }
          batcher := .reserve running batch }
  | reserve {a running batch} (hb : s.batcher = .reserve running batch) :
      StepTo maxBatch s (.batcher a)
        { s with
          shared := { s.shared with
            offset := s.shared.offset +
              ((s.recs.sortBySeq batch).map fun n => (s.recs.dataOf n).length).sum }
          batcher := .write running (s.recs.sortBySeq batch) s.shared.offset }
  | write {a running batch off} (hb : s.batcher = .write running batch off) :
      StepTo maxBatch s (.batcher a)
        { s with
          file := pwrite s.file off (written a (s.recs.bytes batch))
          committed := s.committed ++ [batch]
          batcher := signalFrom running batch }
  | signalDone {a running n rest} (hb : s.batcher = .signalDone running n rest) :
      StepTo maxBatch s (.batcher a)
        { s with
          recs := s.recs.onCompletion n fun c => { c with done := true }
          batcher := .signalWake running n rest }
  | signalWake {a running n rest} (hb : s.batcher = .signalWake running n rest) :
      StepTo maxBatch s (.batcher a)
        { s with
          recs := s.recs.onCompletion n fun c => { c with waker := none }
          woken := s.woken ++ ((s.recs.completionOf n).waker.map fun w => (n, w)).toList
          batcher := signalFrom running rest }
  | checkHead {a} (hb : s.batcher = .checkHead) :
      StepTo maxBatch s (.batcher a)
        { s with batcher := if s.shared.head = none then .exited else .loadRunning }

variable {maxBatch : ℕ} {s s' : State τ}

theorem stepTo_of_run {t : τ} {b : Bool} (h : stepRun s t b = some s') :
    StepTo maxBatch s (.client t (.run b)) s' := by
  simp only [stepRun] at h
  split at h
  case h_1 => cases h
  case h_4 n head hpc =>
    split at h
    case isTrue hc =>
      cases h
      obtain ⟨rfl, hh⟩ := hc
      exact .pushOk hpc hh
    case isFalse =>
      cases h
      exact .pushFail hpc
  case h_6 n w hpc =>
    split at h
    case isTrue hd =>
      cases h
      exact .pollReady hpc hd
    case isFalse hd =>
      cases h
      exact .pollWait hpc (by simpa using hd)
  case h_10 hpc =>
    split at h
    case isTrue he =>
      cases h
      exact .dropJoin hpc he
    case isFalse => cases h
  all_goals
    rename_i hpc
    cases h
    first
      | exact .seqAdd hpc
      | exact .pushLoad hpc
      | exact .countAdd hpc
      | exact .pollStore hpc
      | exact .pollCheck hpc
      | exact .dropStore hpc

theorem stepTo_of_client {t : τ} {a : ClientAct} (h : stepClient s t a = some s') :
    StepTo maxBatch s (.client t a) s' := by
  rcases a with record | ⟨n, w⟩ | _ | b
  · obtain ⟨⟨hpc, hal⟩, rfl⟩ : (s.clients t = .idle ∧ s.alive = true) ∧ _ := by
      simpa [stepClient, Option.ite_none_right_eq_some] using h
    exact .append hpc hal
  · obtain ⟨⟨hpc, hn, hb⟩, rfl⟩ : (s.clients t = .idle ∧ n ∈ s.returned ∧
        (s.recs.completionOf n).borrowed = false) ∧ _ := by
      simpa [stepClient, Option.ite_none_right_eq_some] using h
    exact .poll hpc hn hb
  · obtain ⟨⟨hpc, hal, hb⟩, rfl⟩ : (s.clients t = .idle ∧ s.alive = true ∧
        s.borrowers = []) ∧ _ := by
      simpa [stepClient, Option.ite_none_right_eq_some] using h
    exact .dropStart hpc hal hb
  · exact stepTo_of_run h

theorem stepTo_of_batcher {a : BatcherAct} (h : stepBatcher maxBatch s a = some s') :
    StepTo maxBatch s (.batcher a) s' := by
  simp only [stepBatcher] at h
  split at h
  case h_2 hb =>
    split at h
    · cases h
      exact .windowEnd hb
    · split at h
      · cases h
        exact .windowStay hb
      · cases h
        exact .windowEnd hb
  case h_3 running hb =>
    split at h
    case h_1 hh =>
      cases h
      exact .swapNone hb hh
    case h_2 n hh =>
      cases h
      exact .swapSome hb hh
  case h_11 => cases h
  all_goals
    rename_i hb
    cases h
    first
      | exact .loadRunning hb
      | exact .collect hb
      | exact .subCount hb
      | exact .reserve hb
      | exact .write hb
      | exact .signalDone hb
      | exact .signalWake hb
      | exact .checkHead hb

theorem stepTo_of_step {l : Label τ} (h : step maxBatch s l = some s') :
    StepTo maxBatch s l s' := by
  rcases l with ⟨t, a⟩ | a
  · exact stepTo_of_client h
  · exact stepTo_of_batcher h

end ZeroKv.GroupCommit
