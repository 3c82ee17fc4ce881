/-
# ZeroKv.GroupCommit.Limits — what the log promises of a failing backend, and across batches.

Two promises of the module documentation hold only under conditions that the code does not enforce.
A future is to resolve only once its record is durable; but the Batcher throws the result of
`write_vectored` away and signals the whole batch, so a write that stops early leaves resolved records
unwritten.  The log is to be in submission order; but the Batcher sorts within a batch only, and a
writer that has its number and has not yet pushed its record is overtaken by a whole batch.

For each the condition is stated on the step that goes wrong, and the promise is proved for every run
whose steps meet it.
-/
import Mathlib.Data.Fintype.Basic
import ZeroKv.GroupCommit.Order

namespace ZeroKv.GroupCommit

variable {τ : Type}

/-! ## Durability -/

/-- Where the range of record `n` starts: behind the old contents and the records committed before it,
since the Batcher reserves the range of a batch by adding its length to `offset`.  `args` are the records
handed to `append`, by sequence number. -/
def rangeStart (file : Bytes) (args : List Bytes) (s : State τ) (n : ℕ) : ℕ :=
  file.length + (argBytes args (s.committed.flatten.takeWhile (· ≠ n))).length

/-- The bytes handed to `append` as record `n` are in the file, whole, at their range. -/
def Present (file : Bytes) (args : List Bytes) (s : State τ) (n : ℕ) : Prop :=
  (s.file.drop (rangeStart file args s n)).take (args.getD n []).length = args.getD n []

/-- When a future has answered `Ready`, its record is in the file, and so is every record whose range
starts no later. -/
def Durable (file : Bytes) (args : List Bytes) (s : State τ) : Prop :=
  ∀ n w, (n, w, true) ∈ s.polls → (n < args.length ∧ n ∈ s.committed.flatten) ∧
    ∀ m ∈ s.committed.flatten, rangeStart file args s m ≤ rangeStart file args s n → Present file args s m

/-- The next offset, whatever the backend does with the writes. -/
def Offsets (file : Bytes) (s : State τ) : BatcherPc → Prop
  | .write _ batch off => off = file.length + (s.recs.bytes s.committed.flatten).length ∧
      s.shared.offset = off + (s.recs.bytes batch).length
  | _ => s.shared.offset = file.length + (s.recs.bytes s.committed.flatten).length

/-- A list is what comes before the first `n`, that `n`, and the rest. -/
theorem split_at_first {l : List ℕ} {n : ℕ} (hn : n ∈ l) :
    ∃ after, l = l.takeWhile (· ≠ n) ++ n :: after := by
  induction l with
  | nil => exact absurd hn List.not_mem_nil
  | cons a l ih =>
      by_cases ha : a = n
      · subst ha
        exact ⟨l, by simp⟩
      · obtain ⟨after, hl⟩ := ih ((List.mem_cons.mp hn).resolve_left (Ne.symm ha))
        refine ⟨after, ?_⟩
        rw [List.takeWhile_cons_of_pos (by simpa using ha), List.cons_append, ← hl]

section

variable [DecidableEq τ] {maxBatch : ℕ} {file : Bytes} {s s' : State τ}

/-! The Batcher reserves ranges one behind the other, whatever becomes of the writes. -/

omit [DecidableEq τ] in
theorem Offsets.congr {pc : BatcherPc} (h : Offsets file s pc)
    (hoff : s'.shared.offset = s.shared.offset) (hcom : s'.committed = s.committed)
    (hdata : ∀ n, n ∈ pc.batch ∨ n ∈ s.committed.flatten → s'.recs.dataOf n = s.recs.dataOf n) :
    Offsets file s' pc := by
  have hc : s'.recs.bytes s'.committed.flatten = s.recs.bytes s.committed.flatten := by
    rw [hcom]
    exact List.flatMap_congr fun n hn => hdata n (.inr hn)
  cases pc with
  | write r batch off =>
      have hb : s'.recs.bytes batch = s.recs.bytes batch :=
        List.flatMap_congr fun n hn => hdata n (.inl hn)
      exact ⟨by rw [hc, h.1], by rw [hoff, hb, h.2]⟩
  | _ => exact hoff.trans (h.trans (by rw [hc]))

omit [DecidableEq τ] in
theorem offsets_signalFrom
    (h : s.shared.offset = file.length + (s.recs.bytes s.committed.flatten).length) (r : Bool)
    (b : List ℕ) : Offsets file s (signalFrom r b) := by
  cases b <;> cases r <;> exact h

omit [DecidableEq τ] in
theorem offsets_collectFrom
    (h : s.shared.offset = file.length + (s.recs.bytes s.committed.flatten).length) (r : Bool)
    (b : List ℕ) (n : Option ℕ) : Offsets file s (collectFrom r b n) := by
  cases n <;> exact h

theorem Offsets.step {l : Label τ} (ho : Owned s) {stack chain : List ℕ} (hp : Placed s stack chain)
    (h : Offsets file s s.batcher) (hto : StepTo maxBatch s l s') : Offsets file s' s'.batcher := by
  have hlt : ∀ n, n ∈ s.batcher.batch ∨ n ∈ s.committed.flatten → n < s.recs.length :=
    fun n hn => ho.pushed_lt n (hp.mem_pushed.mpr (.inr (.inr hn)))
  cases hto with
  | seqAdd hpc => exact h.congr rfl rfl fun n hn => Heap.dataOf_append _ (hlt n hn)
  | @reserve a running batch hb =>
      rw [hb] at h
      exact ⟨h, by rw [length_bytes]⟩
  | @write a running batch off hb =>
      rw [hb] at h
      refine offsets_signalFrom ?_ _ _
      show s.shared.offset = file.length + (s.recs.bytes (s.committed ++ [batch]).flatten).length
      rw [h.2, h.1]
      simp [Heap.bytes, Nat.add_assoc]
  | loadRunning hb | swapNone hb _ | checkHead hb =>
      rw [hb] at h
      dsimp only
      split <;> exact h
  | windowEnd hb | swapSome hb _ | subCount hb =>
      rw [hb] at h
      exact h
  | collect hb =>
      rw [hb] at h
      exact offsets_collectFrom h _ _ _
  | signalDone hb =>
      rw [hb] at h
      have h' : s.shared.offset = file.length + (s.recs.bytes s.committed.flatten).length := h
      simpa [Offsets] using h'
  | signalWake hb =>
      rw [hb] at h
      have h' : s.shared.offset = file.length + (s.recs.bytes s.committed.flatten).length := h
      exact offsets_signalFrom (by simpa using h') _ _
  | _ => exact h.congr rfl rfl fun n _ => by simp [State.goto, State.endPoll]

/-- The range of a batch starts where the ranges of the batches before it end, so a record of it is
handed to `write_vectored` for the range `rangeStart` gives it. -/
theorem reserved_offset (hs : (machine τ file maxBatch).Reachable s) : Offsets file s s.batcher := by
  refine hs.invariant (I := fun s => Offsets file s s.batcher) ?_ ?_
  · rintro s rfl
    simp [State.new, startOff, Offsets, Heap.bytes]
  · intro s l t hr hoff hst
    have h := sited_of_reachable hr
    obtain ⟨stack, chain, hp⟩ := h.placed
    exact hoff.step h.owned hp (stepTo_of_step hst)

/-- Records that are all different take no more bytes than all records. -/
theorem bytes_le_of_nodup {h : Heap} {batch : List ℕ} (hnd : batch.Nodup) (hlt : ∀ n ∈ batch, n < h.length) :
    (h.bytes batch).length ≤ (h.bytes (List.range h.length)).length := by
  obtain ⟨l, hperm, hsub⟩ := hnd.subperm fun n hn => List.mem_range.mpr (hlt n hn)
  calc (h.bytes batch).length = (h.bytes l).length := (hperm.flatMap_right _).length_eq.symm
    _ ≤ (h.bytes (List.range h.length)).length := (hsub.flatMap _).length_le

/-- While fewer than `2 ^ 64` records were appended, and the file with all of them is shorter than that,
`seq` and `offset` are below `2 ^ 64`: the words of the source have not wrapped. -/
theorem counters_lt (hs : (machine τ file maxBatch).Reachable s) (hrecs : s.recs.length < 2 ^ 64)
    (hbytes : file.length + (s.recs.bytes (List.range s.recs.length)).length < 2 ^ 64) :
    s.shared.seq < 2 ^ 64 ∧ s.shared.offset < 2 ^ 64 := by
  have h := sited_of_reachable hs
  obtain ⟨stack, chain, hp⟩ := h.placed
  refine ⟨h.owned.seq_next ▸ hrecs, ?_⟩
  have hnd := (hp.nodup h.owned).of_append_right.of_append_right
  have hle := bytes_le_of_nodup hnd fun n hn => h.owned.pushed_lt n
    (hp.mem_pushed.mpr (.inr (.inr (List.mem_append.mp hn))))
  rw [Heap.bytes, List.flatMap_append, List.length_append] at hle
  have hoff := reserved_offset hs
  cases hb : s.batcher with
  | write r batch off =>
      rw [hb] at hoff hle
      have hstart := hoff.1
      have hend := hoff.2
      simp only [Heap.bytes, BatcherPc.batch] at *
      omega
  | _ =>
      rw [hb] at hoff
      simp only [Heap.bytes, Offsets] at *
      omega

/-- The log over `file`, when every write gets its whole batch into the file. -/
def fullWrites (τ : Type) [DecidableEq τ] (file : Bytes) (maxBatch : ℕ) :
    Machine (State τ) (Label τ) :=
  (machine τ file maxBatch).restrict WritesAll

theorem inv_of_fullWrites (hs : (fullWrites τ file maxBatch).Reachable s) : Inv file s := by
  refine hs.invariant ?_ fun s l t _ hi hst => hi.step hst.1 hst.2
  rintro s rfl
  exact inv_new

omit [DecidableEq τ] in
/-- When the file is the old contents followed by the committed records, each of them is at its range. -/
theorem present_of_content {args : List Bytes} (hc : s.file = file ++ argBytes args s.committed.flatten)
    {n : ℕ} (hn : n ∈ s.committed.flatten) : Present file args s n := by
  obtain ⟨after, hsplit⟩ := split_at_first hn
  have hbytes : argBytes args s.committed.flatten =
      argBytes args (s.committed.flatten.takeWhile (· ≠ n)) ++
        (args.getD n [] ++ argBytes args after) := by
    conv_lhs => rw [hsplit]
    simp [argBytes]
  rw [Present, hc, hbytes, rangeStart, ← List.append_assoc, ← List.length_append, List.drop_left]
  exact List.take_left

/-- **Durability under full writes.**  In every run in which every `write_vectored` gets its whole batch
into the file, a future that answers `Ready` has the bytes handed to its `append` in the file, at their
range, with no hole before them. -/
theorem ready_durable {ls : List (Label τ)} (hs : (fullWrites τ file maxBatch).Trace ls s) :
    Durable file (argsOf ls) s := by
  have hi := inv_of_fullWrites hs.reachable
  have hargs := handed_of_trace hs.of_restrict
  have hcontent : s.file = file ++ argBytes (argsOf ls) s.committed.flatten := by
    rw [hi.file.content, hargs.bytes, argsOf]
  obtain ⟨stack, chain, hp⟩ := hi.placed
  intro n w hn
  have hcom := hi.signalled.sound n (hi.signalled.ready n w hn)
  have hlt : n < s.recs.length := hi.owned.pushed_lt n (hp.mem_pushed.mpr (by tauto))
  exact ⟨⟨hargs.length ▸ hlt, hcom⟩, fun m hm _ => present_of_content hcontent hm⟩

/-- One record is appended and committed by a Batcher whose write turns out as `a`, and polled. -/
def pollAfterWrite (record : Bytes) (a : BatcherAct) : List (Label Unit) :=
  .client () (.append record) :: List.replicate 4 (.client () (.run true)) ++
    List.replicate 6 (.batcher .run) ++ .batcher a :: List.replicate 2 (.batcher .run) ++
    [.client () (.poll 0 0), .client () (.run true)]

/-- The state after `pollAfterWrite`, over an empty file. -/
def polledAfterWrite (record : Bytes) (a : BatcherAct) : State Unit :=
  (Machine.runFn (step 1) (.new Unit []) (pollAfterWrite record a)).getD (.new Unit [])

/-- A write that fails before its first byte: the future is `Ready` and the file is empty. -/
theorem failed_write_resolves :
    ¬ ∀ ls s, (machine Unit [] 1).Trace ls s → Durable [] (argsOf ls) s := by
  intro h
  have hs : (machine Unit [] 1).Trace ([] ++ pollAfterWrite [1] (.fail 0))
      (polledAfterWrite [1] (.fail 0)) :=
    Machine.Trace.runFn (f := step 1) (.start rfl) (fun _ _ _ _ hst => hst) (by rfl)
  have hpresent := ((h _ _ hs) 0 0 (by decide)).2 0 (by decide) le_rfl
  have habsent : ¬ Present [] (argsOf (pollAfterWrite [1] (.fail 0))) (polledAfterWrite [1] (.fail 0)) 0 := by
    unfold Present
    decide
  exact habsent hpresent

/-- With a write that succeeds the same future is `Ready` and all bytes of the record are there. -/
theorem ready_durable_sample :
    ((0, 0, true) ∈ (polledAfterWrite [1, 2, 3] .run).polls ∧
      (polledAfterWrite [1, 2, 3] .run).file = [1, 2, 3]) ∧
      Durable [] [[1, 2, 3]] (polledAfterWrite [1, 2, 3] .run) := by
  have hall : ∀ s : State Unit, ∀ l ∈ pollAfterWrite [1, 2, 3] .run, Reliable s l := by
    intro s l hl
    simp only [pollAfterWrite, List.cons_append, List.mem_cons, List.mem_append,
      List.mem_replicate, List.not_mem_nil, or_false] at hl
    rcases hl with rfl | ((⟨-, rfl⟩ | ⟨-, rfl⟩) | rfl | ⟨-, rfl⟩) | rfl | rfl <;> trivial
  have hrun : (fullWrites Unit [] 1).Trace ([] ++ pollAfterWrite [1, 2, 3] .run)
      (polledAfterWrite [1, 2, 3] .run) :=
    Machine.Trace.runFn (f := step 1) (.start rfl)
      (fun s t l hl hst => ⟨(hall s l hl).writesAll, hst⟩) (by rfl)
  exact ⟨⟨by decide, by decide⟩, ready_durable hrun⟩

end

/-! ## Submission order -/

/-- When the Batcher detaches records, no writer holds an unpushed record with a smaller number than a
record that has been pushed. -/
def NoStraggler (s : State τ) : Label τ → Prop
  | .client _ _ => True
  | .batcher _ =>
      match s.batcher with
      | .swap _ => s.shared.head = none ∨
          ∀ t, ∀ n ∈ (s.clients t).owns, ∀ m ∈ s.pushed, s.recs.seqOf m < s.recs.seqOf n
      | _ => True

instance [Fintype τ] (s : State τ) (l : Label τ) : Decidable (NoStraggler s l) :=
  match l with
  | .client _ _ => .isTrue trivial
  | .batcher _ =>
      show Decidable (match s.batcher with
        | .swap _ => s.shared.head = none ∨
            ∀ t, ∀ n ∈ (s.clients t).owns, ∀ m ∈ s.pushed, s.recs.seqOf m < s.recs.seqOf n
        | _ => True) from
      match s.batcher with
      | .swap _ => inferInstanceAs (Decidable (_ ∨ _))
      | .loadRunning | .window | .collect .. | .subCount .. | .reserve .. | .write .. | .signalDone ..
      | .signalWake .. | .checkHead | .exited => .isTrue trivial

section

variable [DecidableEq τ] {maxBatch : ℕ} {file : Bytes} {s s' : State τ}

/-- The records the Batcher has detached are the first ones by number, and so are those it has
committed. -/
structure Leading (s : State τ) : Prop where
  detached : ∀ stack chain, Placed s stack chain → ∀ d ∈ s.pushed, d ∉ stack →
    ∀ n < d, n ∈ s.pushed ∧ n ∉ stack
  committed : ∀ c ∈ s.committed.flatten, ∀ n < c, n ∈ s.committed.flatten
  sorted : Sorted s.recs s.committed.flatten

/-- Only the swap of the Batcher empties the stack. -/
theorem swap_of_emptied {l : Label τ} (hto : StepTo maxBatch s l s') (hs : s.shared.head ≠ none)
    (hs' : s'.shared.head = none) : ∃ a running, l = .batcher a ∧ s.batcher = .swap running := by
  cases hto with
  | swapSome hb _ => exact ⟨_, _, rfl, hb⟩
  | pushOk _ _ => cases hs'
  | _ => exact absurd hs' hs

theorem Leading.detached_step {l : Label τ} (hi : Inv file s) (h : Leading s) (hn : NoStraggler s l)
    (hto : StepTo maxBatch s l s') :
    ∀ stack chain, Placed s' stack chain → ∀ d ∈ s'.pushed, d ∉ stack →
      ∀ n < d, n ∈ s'.pushed ∧ n ∉ stack := by
  obtain ⟨stack, chain, hp⟩ := hi.placed
  obtain ⟨stack', chain', hp', hmove⟩ := hp.step hi.owned hto
  intro st ch hst d hd hds n hnd
  obtain rfl := hst.linked.unique hp'.linked
  rcases hmove with ⟨he, rfl | rfl⟩ | ⟨m, he, rfl⟩
  · rw [he] at hd ⊢
    exact h.detached st chain hp d hd hds n hnd
  · rw [he] at hd ⊢
    refine ⟨?_, List.not_mem_nil⟩
    by_cases hhead : s.shared.head = none
    · -- there was nothing to detach
      have hempty : stack = [] := linked_none.mp (hhead ▸ hp.linked)
      exact (h.detached stack chain hp d hd (by simp [hempty]) n hnd).1
    · obtain ⟨a, running, rfl, hb⟩ := swap_of_emptied hto hhead (linked_nil.mp hst.linked)
      have hlen : d < s.recs.length := hi.owned.pushed_lt d hd
      rcases hi.owned.owned n (hnd.trans hlen) with hpush | ⟨t, ht⟩
      · exact hpush
      · simp only [NoStraggler, hb] at hn
        have hlt := hn.resolve_left hhead t n ht d hd
        rw [hi.owned.seqOf_eq d hlen, hi.owned.seqOf_eq n (hnd.trans hlen)] at hlt
        omega
  · rw [he] at hd ⊢
    have hdm : d ≠ m := fun e => hds (e ▸ List.mem_cons_self)
    have hd' : d ∈ s.pushed := (List.mem_cons.mp hd).resolve_left hdm
    obtain ⟨hn₁, hn₂⟩ := h.detached stack chain hp d hd'
      (fun hm => hds (List.mem_cons_of_mem m hm)) n hnd
    refine ⟨List.mem_cons_of_mem m hn₁, ?_⟩
    -- the record pushed now was not pushed before
    have hnew := (hi.owned.step hto).pushed_nodup
    rw [he] at hnew
    rintro hmem
    rcases List.mem_cons.mp hmem with rfl | hmem
    · exact (List.nodup_cons.mp hnew).1 hn₁
    · exact hn₂ hmem

/-- A write commits everything detached so far. -/
theorem Leading.committed_step {l : Label τ} (hi : Inv file s) (h : Leading s)
    (hto : StepTo maxBatch s l s') :
    (∀ c ∈ s'.committed.flatten, ∀ n < c, n ∈ s'.committed.flatten) ∧
      Sorted s'.recs s'.committed.flatten := by
  obtain ⟨stack, chain, hp⟩ := hi.placed
  cases hto with
  | @write a running batch off hb =>
      have hres := hi.file.reserved
      have hchain : chain = [] := by
        have hdet := hp.detached
        rw [hb] at hdet
        exact linked_none.mp hdet
      rw [hb] at hres
      have hmem : ∀ n, n ∈ s.pushed ∧ n ∉ stack ↔ n ∈ s.committed.flatten ∨ n ∈ batch := by
        intro n
        have hdis := List.disjoint_of_nodup_append (hp.nodup hi.owned)
        rw [hp.mem_pushed, hchain, hb]
        simp only [hchain, hb, List.nil_append, BatcherPc.batch] at hdis ⊢
        constructor
        · rintro ⟨hn, hns⟩
          simp only [List.not_mem_nil, false_or] at hn
          tauto
        · rintro hn
          refine ⟨by tauto, fun hns => hdis hns ?_⟩
          rw [List.mem_append]
          tauto
      have hflat : (s.committed ++ [batch]).flatten = s.committed.flatten ++ batch := by simp
      show (∀ c ∈ (s.committed ++ [batch]).flatten, ∀ n < c, n ∈ (s.committed ++ [batch]).flatten) ∧
        Sorted s.recs (s.committed ++ [batch]).flatten
      rw [hflat]
      have hseq : ∀ n, n ∈ s.committed.flatten ∨ n ∈ batch → s.recs.seqOf n = n := fun n hn =>
        hi.owned.seqOf_eq n (hi.owned.pushed_lt n ((hmem n).mpr hn).1)
      refine ⟨?_, List.pairwise_append.mpr ⟨h.sorted, hres.2, ?_⟩⟩
      · intro c hc n hnc
        have hd := (hmem c).mpr (List.mem_append.mp hc)
        exact List.mem_append.mpr ((hmem n).mp (h.detached stack chain hp c hd.1 hd.2 n hnc))
      · intro c hc b hbb
        rw [hseq c (.inl hc), hseq b (.inr hbb)]
        by_contra hle
        -- a smaller number in the batch would have been committed before
        have hnd := (hp.nodup hi.owned).of_append_right.of_append_right
        rw [hb] at hnd
        rcases Nat.lt_or_eq_of_le (Nat.le_of_not_lt hle) with hlt | rfl
        · exact List.disjoint_of_nodup_append hnd hbb (h.committed c hc b hlt)
        · exact List.disjoint_of_nodup_append hnd hbb hc
  | seqAdd hpc =>
      refine ⟨h.committed, h.sorted.append fun n hn => ?_⟩
      exact hi.owned.pushed_lt n (hp.mem_pushed.mpr (by tauto))
  | _ =>
      refine ⟨h.committed, ?_⟩
      have hsorted := h.sorted
      simpa [Sorted, State.goto, State.endPoll] using hsorted

/-- The log with a backend that always succeeds, when no writer is overtaken. -/
def orderlyMachine (τ : Type) [DecidableEq τ] (file : Bytes) (maxBatch : ℕ) :
    Machine (State τ) (Label τ) :=
  (reliableMachine τ file maxBatch).restrict NoStraggler

/-- **Submission order.**  In every run in which the Batcher never detaches records while a writer
holds an unpushed record with a smaller number, the file has all records in the order of their
sequence numbers, across batches. -/
theorem file_in_submission_order (hs : (orderlyMachine τ file maxBatch).Reachable s) :
    s.file = file ++ s.recs.bytes s.committed.flatten ∧ Sorted s.recs s.committed.flatten := by
  have hlead : Leading s := by
    refine hs.invariant ?_ fun s l t hr hl hst => ?_
    · rintro s rfl
      exact ⟨nofun, nofun, .nil⟩
    · have hi := inv_of_reachable hr.of_restrict
      have hto := stepTo_of_step hst.2.2
      have hc := hl.committed_step hi hto
      exact ⟨hl.detached_step hi hst.1 hto, hc.1, hc.2⟩
  exact ⟨(inv_of_reachable hs.of_restrict).file.content, hlead.sorted⟩

/-- Writer `false` takes number 0 and stops; writer `true` takes number 1 and is committed; then writer
`false` pushes and is committed. -/
def overtaking : List (Label Bool) :=
  [.client false (.append [0]), .client false (.run true), .client true (.append [1])] ++
    List.replicate 4 (.client true (.run true)) ++ List.replicate 9 (.batcher .run) ++
    List.replicate 3 (.client false (.run true)) ++ List.replicate 9 (.batcher .run)

/-- The state after a schedule of two writers, over an empty file. -/
def twoWriters (ls : List (Label Bool)) : State Bool :=
  (Machine.runFn (step 1) (.new Bool []) ls).getD (.new Bool [])

/-- The record with number 1 is in the file before the record with number 0. -/
theorem straggler_out_of_order :
    ¬ ∀ s, (reliableMachine Bool [] 1).Reachable s → Sorted s.recs s.committed.flatten := by
  intro h
  have hrel : ∀ s : State Bool, ∀ l ∈ overtaking, Reliable s l := by
    intro s l hl
    simp only [overtaking, List.cons_append, List.nil_append, List.append_assoc, List.mem_cons,
      List.mem_append, List.mem_replicate] at hl
    rcases hl with rfl | rfl | rfl | ⟨-, rfl⟩ | ⟨-, rfl⟩ | ⟨-, rfl⟩ | ⟨-, rfl⟩ <;> trivial
  have hrun : (reliableMachine Bool [] 1).StaysIn (fun _ => True) (.new Bool [])
      (twoWriters overtaking) :=
    Machine.StaysIn.runFn (f := step 1) (.refl trivial)
      (fun s t l hl hst => ⟨⟨hrel s l hl, hst⟩, trivial⟩) (by rfl)
  have hsorted := h _ (hrun.reachable (.start rfl))
  have hnot : ¬ Sorted (twoWriters overtaking).recs (twoWriters overtaking).committed.flatten := by
    unfold Sorted
    decide
  exact hnot hsorted

/-- Both writers push before the Batcher detaches. -/
def inTurn : List (Label Bool) :=
  [.client false (.append [0]), .client false (.run true), .client true (.append [1])] ++
    List.replicate 4 (.client true (.run true)) ++ List.replicate 3 (.client false (.run true)) ++
    List.replicate 12 (.batcher .run)

theorem file_in_submission_order_sample :
    (twoWriters inTurn).file = [0, 1] ∧
      Sorted (twoWriters inTurn).recs (twoWriters inTurn).committed.flatten := by
  have hrel : ∀ s : State Bool, ∀ l ∈ inTurn, Reliable s l := by
    intro s l hl
    simp only [inTurn, List.cons_append, List.nil_append, List.append_assoc, List.mem_cons,
      List.mem_append, List.mem_replicate] at hl
    rcases hl with rfl | rfl | rfl | ⟨-, rfl⟩ | ⟨-, rfl⟩ | ⟨-, rfl⟩ <;> trivial
  have hrun : (orderlyMachine Bool [] 1).StaysIn (fun _ => True) (.new Bool [])
      (twoWriters inTurn) := by
    refine Machine.StaysIn.runFn (f := fun s l => if NoStraggler s l then step 1 s l else none)
      (.refl trivial) (fun s t l hl hst => ?_)
      (show Machine.runFn _ _ inTurn = some (twoWriters inTurn) from rfl)
    obtain ⟨hn, hst⟩ := Option.ite_none_right_eq_some.mp hst
    exact ⟨⟨hn, hrel s l hl, hst⟩, trivial⟩
  exact ⟨by decide, (file_in_submission_order (hrun.reachable (.start rfl))).2⟩

end

end ZeroKv.GroupCommit
