/-
# ZeroKv.GroupCommit.Order — every record is written once, contiguously, in real-time order.

The proof follows a record from `append` to its completion.  `Owned` says who holds a record that is
not on the stack yet; `Placed` that the published records are exactly those on the stack, in the
chain the Batcher is walking, in its batch, or committed, each in one place; `FileOk` that the
reserved offset is always the end of the file, so that a positional write is an append; `Signalled`
that completions follow the write; `Closing` that nobody can publish once the Batcher has seen
`running` go down.  With a backend that never fails the five together give the contract of the log.
-/
import ZeroKv.GroupCommit.Wal
import Mathlib.Data.List.Perm.Basic
import Mathlib.Data.List.Nodup
import Mathlib.Data.List.Flatten

namespace ZeroKv.GroupCommit

variable {τ : Type} {s s' : State τ}

/-! ## Who holds an unpublished record -/

/-- The record a client has boxed and not yet published. -/
def ClientPc.owns : ClientPc → Option ℕ
  | .pushLoad n | .pushCas n _ => some n
  | _ => none

/-- The client is inside `append`. -/
def ClientPc.appending : ClientPc → Bool
  | .seqAdd _ | .pushLoad _ | .pushCas _ _ | .countAdd _ => true
  | _ => false

/-- What a client's program point says about the record it is working on. -/
def ClientOk (s : State τ) : ClientPc → Prop
  | .pushLoad n => n < s.recs.length ∧ n ∉ s.pushed
  | .pushCas n head => (n < s.recs.length ∧ n ∉ s.pushed) ∧ s.recs.nextOf n = head
  | .countAdd n => n ∈ s.pushed
  | _ => True

/-- A record belongs to the one writer that boxed it, or has been published. -/
structure Owned (s : State τ) : Prop where
  seq_next : s.shared.seq = s.recs.length
  seqOf_eq : ∀ n < s.recs.length, s.recs.seqOf n = n
  pushed_lt : ∀ n ∈ s.pushed, n < s.recs.length
  pushed_nodup : s.pushed.Nodup
  client : ∀ t, ClientOk s (s.clients t)
  one : ∀ t u n, (s.clients t).owns = some n → (s.clients u).owns = some n → t = u
  owned : ∀ n < s.recs.length, n ∈ s.pushed ∨ ∃ t, (s.clients t).owns = some n
  returned : ∀ n ∈ s.returned, n ∈ s.pushed

theorem ClientOk.owns {pc : ClientPc} {n : ℕ} (h : ClientOk s pc) (hn : pc.owns = some n) :
    n < s.recs.length ∧ n ∉ s.pushed := by
  cases pc <;> simp_all [ClientPc.owns, ClientOk]

/-- A step that neither boxes nor publishes a record. -/
theorem Owned.frame (h : Owned s) (hseq : s'.shared.seq = s.shared.seq)
    (hlen : s'.recs.length = s.recs.length) (hseqOf : s'.recs.seqOf = s.recs.seqOf)
    (hpushed : s'.pushed = s.pushed) (hret : ∀ n ∈ s'.returned, n ∈ s.pushed)
    (hown : ∀ t, (s'.clients t).owns = (s.clients t).owns)
    (hok : ∀ t, ClientOk s' (s'.clients t)) : Owned s' where
  seq_next := by rw [hseq, hlen, h.seq_next]
  seqOf_eq n hn := by rw [hseqOf, h.seqOf_eq n (hlen ▸ hn)]
  pushed_lt n hn := by rw [hlen]; exact h.pushed_lt n (hpushed ▸ hn)
  pushed_nodup := hpushed ▸ h.pushed_nodup
  client := hok
  one t u n ht hu := h.one t u n (hown t ▸ ht) (hown u ▸ hu)
  owned n hn := by
    rw [hpushed]
    simpa only [hown] using h.owned n (hlen ▸ hn)
  returned n hn := hpushed ▸ hret n hn

theorem ClientOk.mono {pc : ClientPc} (h : ClientOk s pc)
    (hlen : s.recs.length ≤ s'.recs.length) (hsub : ∀ n ∈ s.pushed, n ∈ s'.pushed)
    (hown : ∀ n, pc.owns = some n → n ∉ s'.pushed ∧ s'.recs.nextOf n = s.recs.nextOf n) :
    ClientOk s' pc := by
  cases pc with
  | pushLoad n => exact ⟨h.1.trans_le hlen, (hown n rfl).1⟩
  | pushCas n head => exact ⟨⟨h.1.1.trans_le hlen, (hown n rfl).1⟩, (hown n rfl).2.trans h.2⟩
  | countAdd n => exact hsub n h
  | _ => trivial

/-- The memory a client's program point speaks of has not changed. -/
theorem ClientOk.congr {pc : ClientPc} (h : ClientOk s pc)
    (hlen : s'.recs.length = s.recs.length) (hnext : s'.recs.nextOf = s.recs.nextOf)
    (hpushed : s'.pushed = s.pushed) : ClientOk s' pc :=
  h.mono hlen.ge (by simp [hpushed]) fun n hn =>
    ⟨by rw [hpushed]; exact (h.owns hn).2, by rw [hnext]⟩

section

variable [DecidableEq τ] {maxBatch : ℕ} {l : Label τ}

theorem owns_goto {t : τ} {pc : ClientPc} (h : pc.owns = (s.clients t).owns) (u : τ) :
    ((s.goto t pc).clients u).owns = (s.clients u).owns :=
  apply_update_of_eq ClientPc.owns h u

theorem clientOk_goto {t : τ} {pc : ClientPc} (h : ClientOk s' pc)
    (hc : ∀ u, u ≠ t → ClientOk s' (s.clients u)) (u : τ) :
    ClientOk s' ((s.goto t pc).clients u) := by
  by_cases hu : u = t
  · subst hu
    simpa [State.goto] using h
  · simpa [State.goto, hu] using hc u hu

theorem Owned.seqAdd (h : Owned s) {t : τ} {record : Bytes}
    (hpc : s.clients t = .seqAdd record) :
    Owned { s.goto t (.pushLoad s.recs.length) with
      shared := { s.shared with seq := s.shared.seq + 1 }
      recs := s.recs ++
        [{ seq := s.shared.seq, data := record, completion := .new, next := none }] } := by
  have hlt : ∀ u n, (s.clients u).owns = some n → n < s.recs.length :=
    fun u n hn => ((h.client u).owns hn).1
  -- the new record is owned by `t` and by nobody else
  have hnew : ∀ u n, ((s.goto t (.pushLoad s.recs.length)).clients u).owns = some n →
      u = t ∧ n = s.recs.length ∨ u ≠ t ∧ (s.clients u).owns = some n := by
    intro u n hn
    by_cases hu : u = t
    · subst hu
      exact .inl ⟨rfl, by simpa [State.goto, ClientPc.owns, eq_comm] using hn⟩
    · exact .inr ⟨hu, by simpa [State.goto, hu] using hn⟩
  refine ⟨?_, ?_, ?_, h.pushed_nodup, ?_, ?_, ?_, h.returned⟩
  · simp [h.seq_next]
  · intro n hn
    rcases Nat.lt_succ_iff_lt_or_eq.mp (by simpa using hn) with hn | rfl
    · rw [Heap.seqOf_append _ hn, h.seqOf_eq n hn]
    · rw [Heap.seqOf_append_self, h.seq_next]
  · intro n hn
    simpa using (h.pushed_lt n hn).trans (Nat.lt_succ_self _)
  · refine clientOk_goto ?_ fun u _ => (h.client u).mono (by simp) (fun _ hn => hn) ?_
    · exact ⟨by simp, fun hm => absurd (h.pushed_lt _ hm) (lt_irrefl _)⟩
    · intro n hn
      exact ⟨((h.client u).owns hn).2, Heap.nextOf_append _ (hlt u n hn)⟩
  · intro u v n hu hv
    rcases hnew u n hu with ⟨hut, hn⟩ | ⟨_, hu'⟩ <;> rcases hnew v n hv with ⟨hvt, hn'⟩ | ⟨_, hv'⟩
    · rw [hut, hvt]
    · exact absurd (hlt v n hv') (by omega)
    · exact absurd (hlt u n hu') (by omega)
    · exact h.one u v n hu' hv'
  · intro n hn
    rcases Nat.lt_succ_iff_lt_or_eq.mp (by simpa using hn) with hn | rfl
    · refine (h.owned n hn).imp id fun ho => ?_
      exact exists_apply_update (p := fun pc : ClientPc => pc.owns = some n) ho
        (by simp [hpc, ClientPc.owns])
    · exact .inr ⟨t, by simp [State.goto, ClientPc.owns]⟩

theorem Owned.pushLoad (h : Owned s) {t : τ} {n : ℕ} (hpc : s.clients t = .pushLoad n) :
    Owned { s.goto t (.pushCas n s.shared.head) with recs := s.recs.setNext n s.shared.head } := by
  have hok := h.client t
  rw [hpc] at hok
  refine h.frame rfl (by simp) (by simp) rfl h.returned (owns_goto (by rw [hpc]; rfl)) ?_
  refine clientOk_goto ?_ fun u hu => (h.client u).mono (by simp) (fun _ hn => hn) ?_
  · exact ⟨⟨by simpa using hok.1, hok.2⟩, Heap.nextOf_setNext_self _ hok.1 _⟩
  · intro m hm
    refine ⟨((h.client u).owns hm).2, Heap.nextOf_setNext_of_ne _ ?_ _⟩
    rintro rfl
    exact hu (h.one u t n hm (by rw [hpc]; rfl))

theorem Owned.pushOk (h : Owned s) {t : τ} {n : ℕ} {head : Option ℕ}
    (hpc : s.clients t = .pushCas n head) :
    Owned { s.goto t (.countAdd n) with
      shared := { s.shared with head := some n }
      pushed := n :: s.pushed } := by
  have hok := h.client t
  rw [hpc] at hok
  have hown : (s.clients t).owns = some n := by rw [hpc]; rfl
  have hne : ∀ u m, u ≠ t → (s.clients u).owns = some m → m ≠ n := by
    rintro u m hu hm rfl
    exact hu (h.one u t m hm hown)
  -- `t` gives up its record, which is on the stack now
  have hold : ∀ u m, ((s.goto t (.countAdd n)).clients u).owns = some m →
      u ≠ t ∧ (s.clients u).owns = some m := by
    intro u m hm
    by_cases hu : u = t
    · subst hu
      simp [State.goto, ClientPc.owns] at hm
    · exact ⟨hu, by simpa [State.goto, hu] using hm⟩
  refine ⟨h.seq_next, h.seqOf_eq, ?_, ?_, ?_, ?_, ?_, ?_⟩
  · rintro m (_ | ⟨_, hm⟩)
    · exact hok.1.1
    · exact h.pushed_lt m hm
  · exact List.nodup_cons.mpr ⟨hok.1.2, h.pushed_nodup⟩
  · refine clientOk_goto List.mem_cons_self fun u hu =>
      (h.client u).mono le_rfl (fun _ => List.mem_cons_of_mem n) fun m hm => ⟨?_, rfl⟩
    rintro (_ | ⟨_, hp⟩)
    · exact hne u n hu hm rfl
    · exact ((h.client u).owns hm).2 hp
  · intro u v m hu hv
    exact h.one u v m (hold u m hu).2 (hold v m hv).2
  · intro m hm
    rcases h.owned m hm with hp | ⟨u, hu⟩
    · exact .inl (List.mem_cons_of_mem n hp)
    · by_cases hut : u = t
      · subst hut
        obtain rfl : n = m := Option.some.inj (hown.symm.trans hu)
        exact .inl List.mem_cons_self
      · exact .inr ⟨u, by simpa [State.goto, hut] using hu⟩
  · intro m hm
    exact List.mem_cons_of_mem n (h.returned m hm)

theorem Owned.step (h : Owned s) (hst : StepTo maxBatch s l s') : Owned s' := by
  cases hst with
  | seqAdd hpc => exact h.seqAdd hpc
  | pushLoad hpc => exact h.pushLoad hpc
  | pushOk hpc _ => exact h.pushOk hpc
  | @pushFail t b n head hpc =>
      have hok := h.client t
      rw [hpc] at hok
      exact h.frame rfl rfl rfl rfl h.returned (owns_goto (by rw [hpc]; rfl))
        (clientOk_goto hok.1 fun u _ => (h.client u).congr rfl rfl rfl)
  | @countAdd t b n hpc =>
      have hok := h.client t
      rw [hpc] at hok
      refine h.frame rfl rfl rfl rfl ?_ (owns_goto (by rw [hpc]; rfl))
        (clientOk_goto trivial fun u _ => (h.client u).congr rfl rfl rfl)
      rintro m (_ | ⟨_, hm⟩)
      · exact hok
      · exact h.returned m hm
  | append hpc _ | poll hpc _ _ | dropStart hpc _ _ | pollReady hpc _ | pollWait hpc _
  | pollStore hpc | pollCheck hpc | dropStore hpc | dropJoin hpc _ =>
      refine h.frame rfl ?_ ?_ rfl h.returned (owns_goto (by rw [hpc]; rfl))
        (clientOk_goto trivial fun u _ => (h.client u).congr ?_ ?_ rfl) <;>
        simp [State.goto, State.endPoll]
  | _ =>
      refine h.frame rfl ?_ ?_ rfl h.returned (fun _ => rfl)
        (fun u => (h.client u).congr ?_ ?_ rfl) <;> simp

end

/-! ## Where the published records are -/

/-- The record the Batcher looks at next in the chain it detached. -/
def BatcherPc.node : BatcherPc → Option ℕ
  | .collect _ n _ => some n
  | _ => none

/-- The records the Batcher has taken and not yet committed. -/
def BatcherPc.batch : BatcherPc → List ℕ
  | .collect _ _ b | .subCount _ b | .reserve _ b | .write _ b _ => b
  | _ => []

/-- The published records are those on the stack, those in the chain being walked, those in the
batch and those committed, each in one place. -/
structure Placed (s : State τ) (stack chain : List ℕ) : Prop where
  linked : Linked s.recs.nextOf s.shared.head stack
  detached : Linked s.recs.nextOf s.batcher.node chain
  perm : (stack ++ (chain ++ (s.batcher.batch ++ s.committed.flatten))).Perm s.pushed

/-- How one step changes the stack: it publishes a record, detaches all of them, or leaves the stack
alone. -/
def StackStep (s s' : State τ) (stack stack' : List ℕ) : Prop :=
  (s'.pushed = s.pushed ∧ (stack' = stack ∨ stack' = [])) ∨
    ∃ n, s'.pushed = n :: s.pushed ∧ stack' = n :: stack

@[simp] theorem collectFrom_node (r : Bool) (b : List ℕ) (n : Option ℕ) :
    (collectFrom r b n).node = n := by
  cases n <;> rfl

@[simp] theorem collectFrom_batch (r : Bool) (b : List ℕ) (n : Option ℕ) :
    (collectFrom r b n).batch = b := by
  cases n <;> rfl

@[simp] theorem signalFrom_node (r : Bool) (b : List ℕ) : (signalFrom r b).node = none := by
  cases b <;> cases r <;> rfl

@[simp] theorem signalFrom_batch (r : Bool) (b : List ℕ) : (signalFrom r b).batch = [] := by
  cases b <;> cases r <;> rfl

variable {stack chain : List ℕ}

/-- Everything that sits in one of the places was published. -/
theorem Placed.mem_pushed (h : Placed s stack chain) {n : ℕ} :
    n ∈ s.pushed ↔ n ∈ stack ∨ n ∈ chain ∨ n ∈ s.batcher.batch ∨ n ∈ s.committed.flatten := by
  simp only [← h.perm.mem_iff, List.mem_append]

/-- Nothing is in two places. -/
theorem Placed.nodup (ho : Owned s) (h : Placed s stack chain) :
    (stack ++ (chain ++ (s.batcher.batch ++ s.committed.flatten))).Nodup :=
  h.perm.nodup_iff.mpr ho.pushed_nodup

theorem Placed.batch_nodup (ho : Owned s) (h : Placed s stack chain) : s.batcher.batch.Nodup :=
  (h.nodup ho).of_append_right.of_append_right.of_append_left

theorem Placed.committed_nodup (ho : Owned s) (h : Placed s stack chain) :
    s.committed.flatten.Nodup :=
  (h.nodup ho).of_append_right.of_append_right.of_append_right

/-- A step that moves no record, though it may write to records that are in none of the places. -/
theorem Placed.frame (h : Placed s stack chain)
    (hnext : ∀ n ∈ s.pushed, s'.recs.nextOf n = s.recs.nextOf n)
    (hhead : s'.shared.head = s.shared.head) (hnode : s'.batcher.node = s.batcher.node)
    (hbatch : s'.batcher.batch = s.batcher.batch) (hcom : s'.committed = s.committed)
    (hpushed : s'.pushed = s.pushed) :
    ∃ stack' chain', Placed s' stack' chain' ∧ StackStep s s' stack stack' := by
  refine ⟨stack, chain, ⟨?_, ?_, ?_⟩, .inl ⟨hpushed, .inl rfl⟩⟩
  · rw [hhead]
    exact h.linked.congr fun n hn => hnext n (h.mem_pushed.mpr (.inl hn))
  · rw [hnode]
    exact h.detached.congr fun n hn => hnext n (h.mem_pushed.mpr (.inr (.inl hn)))
  · rw [hbatch, hcom, hpushed]
    exact h.perm

theorem Placed.step [DecidableEq τ] {maxBatch : ℕ} {l : Label τ} (ho : Owned s)
    (h : Placed s stack chain) (hst : StepTo maxBatch s l s') :
    ∃ stack' chain', Placed s' stack' chain' ∧ StackStep s s' stack stack' := by
  obtain ⟨hs, hc, hp⟩ := id h
  cases hst with
  | seqAdd hpc =>
      -- the new record is not on any list yet
      exact h.frame (fun n hn => Heap.nextOf_append _ (ho.pushed_lt n hn)) rfl rfl rfl rfl rfl
  | @pushLoad t b n hpc =>
      -- the record whose link is written is still unpublished
      have hn : n ∉ s.pushed := by
        have hok := ho.client t
        rw [hpc] at hok
        exact hok.2
      refine h.frame (fun m hm => Heap.nextOf_setNext_of_ne _ ?_ _) rfl rfl rfl rfl rfl
      rintro rfl
      exact hn hm
  | @pushOk t n head hpc hh =>
      have hok := ho.client t
      rw [hpc] at hok
      refine ⟨n :: stack, chain, ⟨⟨rfl, ?_⟩, hc, hp.cons n⟩, .inr ⟨n, rfl, rfl⟩⟩
      show Linked s.recs.nextOf (s.recs.nextOf n) stack
      rwa [hok.2, ← hh]
  | @swapSome a running n hb hh =>
      rw [hb] at hc hp
      obtain rfl := linked_none.mp hc
      refine ⟨[], stack, ⟨rfl, ?_, by simpa [BatcherPc.batch] using hp⟩, .inl ⟨rfl, .inr rfl⟩⟩
      simpa [BatcherPc.node, ← hh] using hs
  | @collect a running n batch hb =>
      rw [hb] at hc hp
      obtain ⟨r, rfl, hr⟩ := linked_some.mp hc
      refine ⟨stack, r, ⟨hs, by simpa using hr, List.Perm.trans ?_ hp⟩, .inl ⟨rfl, .inl rfl⟩⟩
      rw [collectFrom_batch]
      refine List.Perm.append_left stack ?_
      show (r ++ (batch ++ [n] ++ s.committed.flatten)).Perm
        (n :: (r ++ (batch ++ s.committed.flatten)))
      simpa using @List.perm_middle _ n (r ++ batch) s.committed.flatten
  | @reserve a running batch hb =>
      rw [hb] at hc hp
      refine ⟨stack, chain, ⟨hs, hc, List.Perm.trans ?_ hp⟩, .inl ⟨rfl, .inl rfl⟩⟩
      exact (((List.perm_insertionSort _ batch).append_right _).append_left chain).append_left stack
  | @write a running batch off hb =>
      rw [hb] at hc hp
      refine ⟨stack, chain, ⟨hs, ?_, List.Perm.trans ?_ hp⟩, .inl ⟨rfl, .inl rfl⟩⟩
      · rw [signalFrom_node]
        exact hc
      · simp only [signalFrom_batch, List.flatten_append, List.flatten_singleton, List.nil_append]
        exact (List.perm_append_comm.append_left chain).append_left stack
  | loadRunning hb | swapNone hb _ | checkHead hb =>
      refine h.frame (fun _ _ => rfl) rfl ?_ ?_ rfl rfl <;> rw [hb] <;> dsimp only <;> split <;> rfl
  | signalWake hb =>
      refine h.frame (by simp) rfl ?_ ?_ rfl rfl
      · rw [hb, signalFrom_node]
        rfl
      · rw [hb, signalFrom_batch]
        rfl
  | windowEnd hb | subCount hb | signalDone hb =>
      refine h.frame (by simp) rfl ?_ ?_ rfl rfl <;> rw [hb] <;> rfl
  | _ => exact h.frame (by simp [State.goto, State.endPoll]) rfl rfl rfl rfl rfl

/-! ## The file -/

/-- A batch in the order of its sequence numbers. -/
def Sorted (h : Heap) (batch : List ℕ) : Prop := batch.Pairwise fun m n => h.seqOf m < h.seqOf n

/-- Between reserving and writing, the range starts at the end of the file and is as long as the
batch; otherwise the next offset is the end of the file. -/
def Reserved (s : State τ) : BatcherPc → Prop
  | .write _ batch off =>
      (off = s.file.length ∧ s.shared.offset = off + (s.recs.bytes batch).length) ∧
        Sorted s.recs batch
  | _ => s.shared.offset = s.file.length

theorem Reserved.congr {pc : BatcherPc} (h : Reserved s pc) (hfile : s'.file = s.file)
    (hoff : s'.shared.offset = s.shared.offset)
    (hrec : ∀ n ∈ pc.batch, s'.recs.dataOf n = s.recs.dataOf n ∧ s'.recs.seqOf n = s.recs.seqOf n) :
    Reserved s' pc := by
  cases pc with
  | write r batch off =>
      obtain ⟨⟨ho, hnext⟩, hs⟩ := h
      have hb : s'.recs.bytes batch = s.recs.bytes batch :=
        List.flatMap_congr fun n hn => (hrec n hn).1
      refine ⟨⟨hfile ▸ ho, by rw [hoff, hb, hnext]⟩, hs.imp_of_mem ?_⟩
      intro m n hm hn hmn
      rwa [(hrec m hm).2, (hrec n hn).2]
  | _ => exact (hoff.trans h).trans (by rw [hfile])

/-- Outside the window between reserving and writing. -/
theorem reserved_signalFrom (h : s.shared.offset = s.file.length) (r : Bool) (b : List ℕ) :
    Reserved s (signalFrom r b) := by
  cases b <;> cases r <;> exact h

theorem reserved_collectFrom (h : s.shared.offset = s.file.length) (r : Bool) (b : List ℕ)
    (n : Option ℕ) : Reserved s (collectFrom r b n) := by
  cases n <;> exact h

structure FileOk (file : Bytes) (s : State τ) : Prop where
  content : s.file = file ++ s.recs.bytes s.committed.flatten
  reserved : Reserved s s.batcher
  sorted : ∀ batch ∈ s.committed, Sorted s.recs batch

/-- The backend does what it is asked for. -/
def Reliable (_ : State τ) : Label τ → Prop
  | .batcher (.fail _) => False
  | _ => True

/-- A write, if this step is one, gets every byte of its batch into the file. -/
def WritesAll (s : State τ) : Label τ → Prop
  | .batcher a => ∀ running batch off, s.batcher = .write running batch off →
      written a (s.recs.bytes batch) = s.recs.bytes batch
  | .client _ _ => True

theorem Reliable.writesAll {l : Label τ} (h : Reliable s l) : WritesAll s l := by
  rcases l with ⟨t, a⟩ | a
  · trivial
  · intro running batch off _
    cases a with
    | fail n => exact h.elim
    | _ => rfl

theorem length_bytes (h : Heap) (batch : List ℕ) :
    (h.bytes batch).length = (batch.map fun n => (h.dataOf n).length).sum :=
  List.length_flatMap

theorem sorted_sortBySeq (h : Heap) {batch : List ℕ} (hlt : ∀ n ∈ batch, h.seqOf n = n)
    (hnd : batch.Nodup) : Sorted h (h.sortBySeq batch) := by
  have hle : (h.sortBySeq batch).Pairwise fun m n => h.seqOf m ≤ h.seqOf n := by
    have : Std.Total fun m n => h.seqOf m ≤ h.seqOf n := ⟨fun m n => le_total _ _⟩
    have : IsTrans ℕ fun m n => h.seqOf m ≤ h.seqOf n := ⟨fun _ _ _ => le_trans⟩
    exact List.pairwise_insertionSort _ batch
  have hne : (h.sortBySeq batch).Pairwise (· ≠ ·) :=
    (List.perm_insertionSort _ batch).nodup_iff.mpr hnd
  refine (hle.and hne).imp_of_mem ?_
  intro m n hm hn hmn
  refine lt_of_le_of_ne hmn.1 fun he => hmn.2 ?_
  rwa [hlt m ((List.mem_insertionSort _).mp hm), hlt n ((List.mem_insertionSort _).mp hn)] at he

/-- A step that touches neither the file nor the bytes and numbers of a record. -/
theorem FileOk.frame {file : Bytes} (h : FileOk file s) (hfile : s'.file = s.file)
    (hcom : s'.committed = s.committed) (hdata : s'.recs.bytes = s.recs.bytes)
    (hseq : s'.recs.seqOf = s.recs.seqOf) (hres : Reserved s' s'.batcher) : FileOk file s' where
  content := by rw [hfile, hcom, hdata, h.content]
  reserved := hres
  sorted batch hb := by
    have := h.sorted batch (hcom ▸ hb)
    simpa only [Sorted, hseq] using this

theorem Sorted.append {h : Heap} {p : Pending} {batch : List ℕ} (hs : Sorted h batch)
    (hlt : ∀ n ∈ batch, n < h.length) : Sorted (h ++ [p]) batch :=
  List.Pairwise.imp_of_mem (fun {m n} hm hn hmn => by
    rwa [Heap.seqOf_append _ (hlt m hm), Heap.seqOf_append _ (hlt n hn)]) hs

theorem FileOk.step [DecidableEq τ] {maxBatch : ℕ} {l : Label τ} {file : Bytes} (ho : Owned s)
    (hpl : Placed s stack chain) (h : FileOk file s) (hw : WritesAll s l)
    (hst : StepTo maxBatch s l s') : FileOk file s' := by
  have hres := h.reserved
  have hlt : ∀ n, n ∈ s.batcher.batch ∨ n ∈ s.committed.flatten → n < s.recs.length :=
    fun n hn => ho.pushed_lt n (hpl.mem_pushed.mpr (.inr (.inr hn)))
  cases hst with
  -- a new record has the next index, so no batch speaks of it
  | @seqAdd t b record hpc =>
      refine ⟨?_, ?_, fun batch hb => (h.sorted batch hb).append fun n hn =>
        hlt n (.inr (List.mem_flatten.mpr ⟨batch, hb, hn⟩))⟩
      · show s.file = file ++ Heap.bytes (s.recs ++ [_]) s.committed.flatten
        rw [Heap.bytes_append _ fun n hn => hlt n (.inr hn), h.content]
      · exact hres.congr rfl rfl fun n hn =>
          ⟨Heap.dataOf_append _ (hlt n (.inl hn)), Heap.seqOf_append _ (hlt n (.inl hn))⟩
  | @reserve a running batch hb =>
      have hnd := hpl.batch_nodup ho
      rw [hb] at hres hlt hnd
      refine h.frame rfl rfl rfl rfl ⟨⟨hres, ?_⟩, ?_⟩
      · rw [length_bytes]
      · exact sorted_sortBySeq _ (fun n hn => ho.seqOf_eq n (hlt n (.inl hn))) hnd
  | @write a running batch off hb =>
      rw [hb] at hres
      have hall : written a (s.recs.bytes batch) = s.recs.bytes batch := hw _ _ _ hb
      -- the reserved range starts at the end of the file, so the write is an append
      obtain ⟨⟨hoff, hnext⟩, hsort⟩ := hres
      refine ⟨?_, ?_, ?_⟩
      · show pwrite s.file off (written a (s.recs.bytes batch)) = _
        rw [hall, hoff, pwrite_length, h.content]
        simp [Heap.bytes]
      · refine reserved_signalFrom ?_ _ _
        show s.shared.offset = (pwrite s.file off (written a (s.recs.bytes batch))).length
        rw [hall, hoff, pwrite_length, List.length_append, ← hoff, hnext]
      · intro b hb
        rcases List.mem_append.mp hb with hb | hb
        · exact h.sorted b hb
        · obtain rfl := List.mem_singleton.mp hb
          exact hsort
  | loadRunning hb | swapNone hb _ | checkHead hb =>
      rw [hb] at hres
      refine h.frame rfl rfl rfl rfl ?_
      dsimp only
      split <;> exact hres
  | windowEnd hb | swapSome hb _ | subCount hb =>
      rw [hb] at hres
      exact h.frame rfl rfl rfl rfl hres
  | collect hb =>
      rw [hb] at hres
      exact h.frame rfl rfl rfl rfl (reserved_collectFrom hres _ _ _)
  | signalDone hb =>
      rw [hb] at hres
      exact h.frame rfl rfl (by simp) (by simp) hres
  | signalWake hb =>
      rw [hb] at hres
      refine h.frame rfl rfl (by simp) (by simp) (reserved_signalFrom ?_ _ _)
      exact hres
  | _ =>
      refine h.frame rfl rfl ?_ ?_ (hres.congr rfl rfl fun n _ => ⟨?_, ?_⟩) <;>
        simp [State.goto, State.endPoll]

/-! ## Completions -/

/-- The records of the last batch whose completion is not yet marked. -/
def BatcherPc.unsignalled : BatcherPc → List ℕ
  | .signalDone _ n rest => n :: rest
  | .signalWake _ _ rest => rest
  | _ => []

@[simp] theorem signalFrom_unsignalled (r : Bool) (b : List ℕ) :
    (signalFrom r b).unsignalled = b := by
  cases b <;> cases r <;> rfl

@[simp] theorem collectFrom_unsignalled (r : Bool) (b : List ℕ) (n : Option ℕ) :
    (collectFrom r b n).unsignalled = [] := by
  cases n <;> rfl

/-- Only committed records are marked, and all of them are except those still to be signalled. -/
structure Signalled (s : State τ) : Prop where
  sound : ∀ n, (s.recs.completionOf n).done = true → n ∈ s.committed.flatten
  complete : ∀ n ∈ s.committed.flatten,
    (s.recs.completionOf n).done = true ∨ n ∈ s.batcher.unsignalled
  pending : ∀ n ∈ s.batcher.unsignalled, n ∈ s.committed.flatten
  ready : ∀ n w, (n, w, true) ∈ s.polls → (s.recs.completionOf n).done = true

/-- A step that marks nothing. -/
theorem Signalled.frame (h : Signalled s)
    (hdone : ∀ n, (s'.recs.completionOf n).done = (s.recs.completionOf n).done)
    (hcom : s'.committed = s.committed) (huns : s'.batcher.unsignalled = s.batcher.unsignalled)
    (hpolls : ∀ n w, (n, w, true) ∈ s'.polls →
      (n, w, true) ∈ s.polls ∨ (s.recs.completionOf n).done = true) : Signalled s' where
  sound n hn := hcom ▸ h.sound n (hdone n ▸ hn)
  complete n hn := by
    rw [hdone, huns]
    exact h.complete n (hcom ▸ hn)
  pending n hn := hcom ▸ h.pending n (huns ▸ hn)
  ready n w hn := by
    rw [hdone]
    exact (hpolls n w hn).elim (h.ready n w) id

theorem done_append (h : Heap) {p : Pending} (hp : p.completion.done = false) (n : ℕ) :
    (Heap.completionOf (h ++ [p]) n).done = (h.completionOf n).done := by
  rcases Nat.lt_trichotomy n h.length with hn | rfl | hn
  · rw [Heap.completionOf_append _ hn]
  · simp [Heap.completionOf, hp, Completion.new]
  · have hlen : (h ++ [p]).length ≤ n := by simpa using Nat.succ_le_of_lt hn
    simp [Heap.completionOf, List.getElem?_eq_none hlen, List.getElem?_eq_none hn.le]

/-- A `Ready` that a poll of record `n` adds to the answers was read off `done`. -/
theorem mem_polls_endPoll [DecidableEq τ] {t : τ} {n w m v : ℕ} {ready : Bool}
    (hm : (m, v, true) ∈ (s.endPoll t n w ready).polls) :
    (m, v, true) ∈ s.polls ∨ m = n ∧ ready = true := by
  rcases List.mem_append.mp hm with hm | hm
  · exact .inl hm
  · simp only [List.mem_singleton, Prod.mk.injEq] at hm
    exact .inr ⟨hm.1, hm.2.2.symm⟩

theorem done_onCompletion_iff {h : Heap} {n : ℕ} (hn : n < h.length) (m : ℕ) :
    ((h.onCompletion n fun c => { c with done := true }).completionOf m).done = true ↔
      m = n ∨ (h.completionOf m).done = true := by
  by_cases hm : n = m
  · subst hm
    simp [h.completionOf_onCompletion_self hn fun c => { c with done := true }]
  · rw [h.completionOf_onCompletion_of_ne hm]
    simp [Ne.symm hm]

theorem Signalled.step [DecidableEq τ] {maxBatch : ℕ} {l : Label τ} (ho : Owned s)
    (hpl : Placed s stack chain) (h : Signalled s) (hst : StepTo maxBatch s l s') : Signalled s' := by
  cases hst with
  | seqAdd _ => exact h.frame (done_append _ rfl) rfl rfl fun n w hn => .inl hn
  | poll _ _ _ | pollStore _ =>
      exact h.frame (by simp) rfl rfl fun n w hn => .inl hn
  | @pollReady t b n w _ hd =>
      refine h.frame (by simp [State.endPoll]) rfl rfl fun m v hm => ?_
      exact (mem_polls_endPoll hm).imp_right fun ⟨hn, _⟩ => hn ▸ hd
  | @pollCheck t b n w _ =>
      refine h.frame (by simp [State.endPoll]) rfl rfl fun m v hm => ?_
      exact (mem_polls_endPoll hm).imp_right fun ⟨hn, hd⟩ => hn ▸ hd
  | @write a running batch off hb =>
      -- the batch becomes committed and unsignalled at once; nothing was unsignalled before it
      have hun : s.batcher.unsignalled = [] := by rw [hb]; rfl
      refine ⟨?_, ?_, ?_, h.ready⟩
      · intro n hn
        rw [List.flatten_append]
        exact List.mem_append_left _ (h.sound n hn)
      · intro n hn
        rw [signalFrom_unsignalled]
        rw [List.flatten_append, List.flatten_singleton] at hn
        rcases List.mem_append.mp hn with hn | hn
        · refine .inl ((h.complete n hn).resolve_right ?_)
          rw [hun]
          exact List.not_mem_nil
        · exact .inr hn
      · intro n hn
        rw [signalFrom_unsignalled] at hn
        rw [List.flatten_append, List.flatten_singleton]
        exact List.mem_append_right _ hn
  | @signalDone a running n rest hb =>
      have hcom : n ∈ s.committed.flatten := h.pending n (by rw [hb]; exact List.mem_cons_self)
      have hlt : n < s.recs.length := ho.pushed_lt n (hpl.mem_pushed.mpr (by tauto))
      have hdone := done_onCompletion_iff hlt
      refine ⟨fun m hm => ?_, fun m hm => ?_, fun m hm => ?_, fun m w hm => ?_⟩
      · rcases (hdone m).mp hm with rfl | hm
        · exact hcom
        · exact h.sound m hm
      · refine (or_congr (hdone m) Iff.rfl).mpr ?_
        have := h.complete m hm
        rw [hb] at this
        simp only [BatcherPc.unsignalled, List.mem_cons] at this ⊢
        tauto
      · refine h.pending m ?_
        rw [hb]
        exact List.mem_cons_of_mem n hm
      · exact (hdone m).mpr (.inr (h.ready m w hm))
  | @signalWake a running n rest hb =>
      refine h.frame (by simp) rfl ?_ fun n w hn => .inl hn
      rw [hb, signalFrom_unsignalled]
      rfl
  | collect hb =>
      refine h.frame (fun _ => rfl) rfl ?_ fun n w hn => .inl hn
      rw [hb, collectFrom_unsignalled]
      rfl
  | loadRunning hb | swapNone hb _ | checkHead hb =>
      refine h.frame (fun _ => rfl) rfl ?_ fun n w hn => .inl hn
      rw [hb]
      dsimp only
      split <;> rfl
  | windowEnd hb | swapSome hb _ | subCount hb | reserve hb =>
      exact h.frame (fun _ => rfl) rfl (by rw [hb]; rfl) fun n w hn => .inl hn
  | _ => exact h.frame (by simp [State.goto]) rfl rfl fun n w hn => .inl hn

/-! ## Shutting down -/

/-- The Batcher has seen `running` go down. -/
def BatcherPc.draining : BatcherPc → Bool
  | .loadRunning | .window => false
  | .swap r | .collect r _ _ | .subCount r _ | .reserve r _ | .write r _ _ | .signalDone r _ _
  | .signalWake r _ _ => !r
  | .checkHead | .exited => true

@[simp] theorem signalFrom_draining (r : Bool) (b : List ℕ) : (signalFrom r b).draining = !r := by
  cases b <;> cases r <;> rfl

@[simp] theorem collectFrom_draining (r : Bool) (b : List ℕ) (n : Option ℕ) :
    (collectFrom r b n).draining = !r := by
  cases n <;> rfl

theorem signalFrom_ne_exited (r : Bool) (b : List ℕ) : signalFrom r b ≠ .exited := by
  cases b <;> cases r <;> simp [signalFrom]

theorem collectFrom_ne_exited (r : Bool) (b : List ℕ) (n : Option ℕ) :
    collectFrom r b n ≠ .exited := by
  cases n <;> simp [collectFrom]

/-- `drop` waits for the appends to return, so that nothing is published behind the Batcher's last
look at the stack. -/
structure Closing (s : State τ) : Prop where
  borrow : ∀ t, (s.clients t).appending = true → t ∈ s.borrowers
  closed : s.alive = false → s.borrowers = []
  dropping : ∀ t, s.clients t = .dropStore → s.alive = false
  running : s.shared.running = false → s.alive = false
  draining : s.batcher.draining = true → s.alive = false
  empty : s.batcher = .exited → s.shared.head = none

/-- Once the handle is gone no client is inside `append`. -/
theorem Closing.not_appending (h : Closing s) (hal : s.alive = false) (t : τ) :
    (s.clients t).appending = false := by
  rw [Bool.eq_false_iff]
  intro ht
  have := h.borrow t ht
  rw [h.closed hal] at this
  exact List.not_mem_nil this

/-- A step that leaves the handle, the flag and the stack alone. -/
theorem Closing.frame (h : Closing s)
    (happ : ∀ t, (s'.clients t).appending = true → (s.clients t).appending = true)
    (hdrop : ∀ t, s'.clients t = .dropStore → s.clients t = .dropStore)
    (hbor : s'.borrowers = s.borrowers) (hal : s'.alive = s.alive)
    (hrun : s'.shared.running = s.shared.running)
    (hdr : s'.batcher.draining = true → s.batcher.draining = true)
    (hemp : s'.batcher = .exited → s'.shared.head = none) : Closing s' where
  borrow t ht := hbor ▸ h.borrow t (happ t ht)
  closed hc := hbor ▸ h.closed (hal ▸ hc)
  dropping t ht := hal ▸ h.dropping t (hdrop t ht)
  running hc := hal ▸ h.running (hrun ▸ hc)
  draining hc := hal ▸ h.draining (hdr hc)
  empty := hemp

theorem appending_goto [DecidableEq τ] {t : τ} {pc : ClientPc}
    (h : pc.appending = true → (s.clients t).appending = true) (u : τ)
    (hu : ((s.goto t pc).clients u).appending = true) : (s.clients u).appending = true :=
  of_apply_update (p := fun pc : ClientPc => pc.appending = true) h hu

theorem dropping_goto [DecidableEq τ] {t : τ} {pc : ClientPc} (h : pc ≠ .dropStore) (u : τ)
    (hu : (s.goto t pc).clients u = .dropStore) : s.clients u = .dropStore :=
  of_apply_update (p := fun pc : ClientPc => pc = .dropStore) (fun hb => absurd hb h) hu

theorem Closing.step [DecidableEq τ] {maxBatch : ℕ} {l : Label τ} (h : Closing s)
    (hst : StepTo maxBatch s l s') : Closing s' := by
  cases hst with
  | @append t record hpc hal =>
      refine ⟨fun u hu => ?_, fun hc => absurd hc (by simp [State.goto, hal]),
        fun u hu => h.dropping u (dropping_goto (by simp) u hu), h.running, h.draining, h.empty⟩
      by_cases hut : u = t
      · subst hut
        exact List.mem_cons_self
      · exact List.mem_cons_of_mem t (h.borrow u (by simpa [State.goto, hut] using hu))
  | @dropStart t hpc hal hb =>
      -- `drop` has the log to itself: no append holds a borrow when it starts
      refine ⟨fun u hu => ?_, fun _ => hb, fun _ _ => rfl, fun _ => rfl, fun _ => rfl, h.empty⟩
      exact h.borrow u (appending_goto (by simp [ClientPc.appending]) u hu)
  | @countAdd t b n hpc =>
      refine ⟨fun u hu => ?_, fun hc => ?_, fun u hu => h.dropping u (dropping_goto (by simp) u hu),
        h.running, h.draining, h.empty⟩
      · have hut : u ≠ t := by
          rintro rfl
          simp [State.goto, ClientPc.appending] at hu
        have hu' := appending_goto (by simp [ClientPc.appending]) u hu
        exact List.mem_filter.mpr ⟨h.borrow u hu', by simpa using hut⟩
      · show s.borrowers.filter _ = []
        rw [h.closed hc]
        rfl
  | @pushOk t n head hpc hh =>
      refine h.frame (appending_goto (by rw [hpc]; exact id)) (dropping_goto (by simp)) rfl rfl rfl id ?_
      -- an exited Batcher excludes a client that is about to publish
      intro he
      have he' : s.batcher = .exited := he
      have := h.not_appending (h.draining (by rw [he']; rfl)) t
      rw [hpc] at this
      exact absurd this nofun
  | @dropStore t b hpc =>
      refine ⟨fun u hu => h.borrow u (appending_goto (by simp [ClientPc.appending]) u hu), h.closed,
        fun u hu => h.dropping u (dropping_goto (by simp) u hu), fun _ => h.dropping t hpc,
        h.draining, h.empty⟩
  | @loadRunning a hb =>
      refine ⟨h.borrow, h.closed, h.dropping, h.running, fun hd => ?_, ?_⟩ <;> dsimp only at *
      · split at hd
        · exact absurd hd nofun
        · rename_i hr
          exact h.running (by simpa using hr)
      · split <;> exact nofun
  | @swapNone a r hb hh =>
      refine h.frame (fun _ ht => ht) (fun _ ht => ht) rfl rfl rfl ?_ fun _ => hh
      rw [hb]
      cases r <;> simp [BatcherPc.draining]
  | @checkHead a hb =>
      refine h.frame (fun _ ht => ht) (fun _ ht => ht) rfl rfl rfl (fun _ => by rw [hb]; rfl) ?_
      dsimp only
      split
      · rename_i hh
        exact fun _ => hh
      · exact nofun
  | windowEnd hb =>
      exact h.frame (fun _ ht => ht) (fun _ ht => ht) rfl rfl rfl nofun nofun
  | swapSome hb _ | subCount hb | reserve hb | signalDone hb =>
      exact h.frame (fun _ ht => ht) (fun _ ht => ht) rfl rfl rfl (by rw [hb]; exact id) nofun
  | collect hb =>
      refine h.frame (fun _ ht => ht) (fun _ ht => ht) rfl rfl rfl ?_
        fun he => absurd he (collectFrom_ne_exited _ _ _)
      rw [hb, collectFrom_draining]
      exact id
  | write hb | signalWake hb =>
      refine h.frame (fun _ ht => ht) (fun _ ht => ht) rfl rfl rfl ?_
        fun he => absurd he (signalFrom_ne_exited _ _)
      rw [hb, signalFrom_draining]
      exact id
  | seqAdd hpc | pushLoad hpc | pushFail hpc =>
      exact h.frame (appending_goto (by rw [hpc]; exact id)) (dropping_goto (by simp)) rfl rfl rfl id
        h.empty
  | windowStay hb => exact h
  | _ =>
      exact h.frame (appending_goto (by simp [ClientPc.appending])) (dropping_goto (by simp)) rfl rfl rfl id
        h.empty

/-! ## The log with any backend -/

variable [DecidableEq τ] {maxBatch : ℕ} {file : Bytes}

/-- Where the records are does not depend on how the writes turn out. -/
structure Sited (s : State τ) : Prop where
  owned : Owned s
  placed : ∃ stack chain, Placed s stack chain
  signalled : Signalled s

omit [DecidableEq τ] in
theorem sited_new {file : Bytes} : Sited (State.new τ file) where
  owned := ⟨rfl, nofun, nofun, .nil, fun _ => trivial, nofun, nofun, nofun⟩
  placed := ⟨[], [], rfl, rfl, .refl _⟩
  signalled := ⟨nofun, nofun, nofun, nofun⟩

theorem Sited.step {l : Label τ} (h : Sited s) (hto : StepTo maxBatch s l s') : Sited s' := by
  obtain ⟨stack, chain, hp⟩ := h.placed
  obtain ⟨stack', chain', hp', _⟩ := hp.step h.owned hto
  exact ⟨h.owned.step hto, ⟨stack', chain', hp'⟩, h.signalled.step h.owned hp hto⟩

theorem sited_of_reachable (hs : (machine τ file maxBatch).Reachable s) : Sited s :=
  hs.invariant (fun _ hinit => hinit ▸ sited_new) fun _ _ _ _ h hst => h.step (stepTo_of_step hst)

omit [DecidableEq τ] in
/-- A record the Batcher is about to signal is one of the heap. -/
theorem Sited.unsignalled_lt (h : Sited s) {n : ℕ} (hn : n ∈ s.batcher.unsignalled) :
    n < s.recs.length := by
  obtain ⟨stack, chain, hp⟩ := h.placed
  have hcom := h.signalled.pending n hn
  exact h.owned.pushed_lt n (hp.mem_pushed.mpr (.inr (.inr (.inr hcom))))

/-! ## The log with a backend that never fails -/

/-- The log over a file with contents `file`, when every `write_vectored` succeeds. -/
def reliableMachine (τ : Type) [DecidableEq τ] (file : Bytes) (maxBatch : ℕ) :
    Machine (State τ) (Label τ) :=
  (machine τ file maxBatch).restrict Reliable

structure Inv (file : Bytes) (s : State τ) : Prop extends Sited s where
  file : FileOk file s
  closing : Closing s

omit [DecidableEq τ] in
theorem inv_new : Inv file (State.new τ file) where
  toSited := sited_new
  file := ⟨by simp [State.new, Heap.bytes], rfl, nofun⟩
  closing := ⟨nofun, nofun, nofun, nofun, nofun, nofun⟩

theorem Inv.step {l : Label τ} (h : Inv file s) (hw : WritesAll s l)
    (hst : GroupCommit.step maxBatch s l = some s') : Inv file s' := by
  have hto := stepTo_of_step hst
  obtain ⟨stack, chain, hp⟩ := h.placed
  exact ⟨h.toSited.step hto, h.file.step h.owned hp hw hto, h.closing.step hto⟩

theorem inv_of_reachable (hs : (reliableMachine τ file maxBatch).Reachable s) : Inv file s := by
  refine hs.invariant ?_ fun s l t _ hi hst => hi.step hst.1.writesAll hst.2
  rintro s rfl
  exact inv_new

/-! ### Real-time order -/

/-- Record `a` was published when only records below `n₀` existed: no later record overtakes it. -/
structure Ahead (a n₀ : ℕ) (s : State τ) : Prop where
  lt : a < n₀
  pushed : a ∈ s.pushed
  stacked : ∀ stack chain, Placed s stack chain → a ∈ stack → ∀ b ∈ s.pushed, n₀ ≤ b → b ∈ stack
  before : ∀ b ∈ s.committed.flatten, n₀ ≤ b → [a, b].Sublist s.committed.flatten

/-- In a sorted batch the smaller of two records comes first. -/
theorem Sorted.sublist {h : Heap} {batch : List ℕ} {a b : ℕ} (hs : Sorted h batch)
    (ha : a ∈ batch) (hb : b ∈ batch) (hab : h.seqOf a < h.seqOf b) : [a, b].Sublist batch := by
  obtain ⟨l₁, l₂, rfl⟩ := List.append_of_mem ha
  have hb₂ : b ∈ l₂ := by
    rcases List.mem_append.mp hb with hb | hb
    · have := (List.pairwise_append.mp hs).2.2 b hb a List.mem_cons_self
      omega
    · rcases List.mem_cons.mp hb with rfl | hb
      · omega
      · exact hb
  exact ((List.singleton_sublist.mpr hb₂).cons_cons a).trans (List.sublist_append_right l₁ _)

omit [DecidableEq τ] in
/-- A batch that holds a later record holds `a` too, unless `a` is committed already. -/
theorem Ahead.mem_batch {a n₀ b : ℕ} {stack : List ℕ} (hi : Inv file s) (h : Ahead a n₀ s)
    (hp : Placed s stack []) (hb : b ∈ s.batcher.batch) (hle : n₀ ≤ b) :
    a ∈ s.batcher.batch ∨ a ∈ s.committed.flatten := by
  rcases hp.mem_pushed.mp h.pushed with ha | ha | ha | ha
  · have hbs := h.stacked _ _ hp ha b (hp.mem_pushed.mpr (by tauto)) hle
    have hdis := List.disjoint_of_nodup_append (hp.nodup hi.owned) hbs
    exact absurd (by simp [hb]) hdis
  · exact absurd ha List.not_mem_nil
  · exact .inl ha
  · exact .inr ha

theorem Ahead.before_step {a n₀ : ℕ} {stack chain : List ℕ} {l : Label τ} (hi : Inv file s)
    (h : Ahead a n₀ s) (hp : Placed s stack chain) (hto : StepTo maxBatch s l s') :
    ∀ b ∈ s'.committed.flatten, n₀ ≤ b → [a, b].Sublist s'.committed.flatten := by
  cases hto with
  | @write act running batch off hb =>
      intro b hbm hle
      obtain rfl : chain = [] := by
        have := hp.detached
        rw [hb] at this
        exact linked_none.mp this
      have hmem := fun hbb => h.mem_batch (b := b) hi hp hbb hle
      have hsort := hi.file.reserved
      rw [hb] at hmem hsort
      have hseq : ∀ n ∈ batch, s.recs.seqOf n = n := fun n hn =>
        hi.owned.seqOf_eq n (hi.owned.pushed_lt n (hp.mem_pushed.mpr (by rw [hb]; tauto)))
      show [a, b].Sublist (s.committed ++ [batch]).flatten
      rw [List.flatten_append, List.flatten_singleton] at hbm ⊢
      rcases List.mem_append.mp hbm with hbm | hbm
      · exact (h.before b hbm hle).trans (List.sublist_append_left _ _)
      · rcases hmem hbm with ha | ha
        · refine (hsort.2.sublist ha hbm ?_).trans (List.sublist_append_right _ _)
          rw [hseq a ha, hseq b hbm]
          exact h.lt.trans_le hle
        · exact (List.singleton_sublist.mpr ha).append (List.singleton_sublist.mpr hbm)
  | _ => exact h.before

theorem Ahead.step {a n₀ : ℕ} {l : Label τ} (hi : Inv file s) (h : Ahead a n₀ s)
    (hst : (reliableMachine τ file maxBatch).step s l s') : Ahead a n₀ s' := by
  obtain ⟨stack, chain, hp⟩ := hi.placed
  have hto := stepTo_of_step hst.2
  obtain ⟨stack', chain', hp', hmove⟩ := hp.step hi.owned hto
  refine ⟨h.lt, ?_, ?_, ?_⟩
  · rcases hmove with ⟨he, _⟩ | ⟨n, he, _⟩ <;> rw [he]
    · exact h.pushed
    · exact List.mem_cons_of_mem n h.pushed
  · intro st ch hst' ha b hb hle
    obtain rfl := hst'.linked.unique hp'.linked
    rcases hmove with ⟨he, rfl | rfl⟩ | ⟨n, he, rfl⟩
    · exact h.stacked _ _ hp ha b (he ▸ hb) hle
    · exact absurd ha List.not_mem_nil
    · rcases List.mem_cons.mp (he ▸ hb) with rfl | hb
      · exact List.mem_cons_self
      · rcases List.mem_cons.mp ha with rfl | ha
        · -- `a` was published before, so it is not the record published now
          have := hi.owned.step hto |>.pushed_nodup
          rw [he] at this
          exact absurd h.pushed (List.nodup_cons.mp this).1
        · exact List.mem_cons_of_mem n (h.stacked _ _ hp ha b hb hle)
  · exact h.before_step hi hp hto

omit [DecidableEq τ] in
/-- When the Batcher has exited every record is committed. -/
theorem Inv.mem_committed_of_exited (hi : Inv file s) (he : s.batcher = .exited) {n : ℕ}
    (hn : n < s.recs.length) : n ∈ s.committed.flatten := by
  obtain ⟨stack, chain, hp⟩ := hi.placed
  have hal : s.alive = false := hi.closing.draining (by rw [he]; rfl)
  have hpub : n ∈ s.pushed := by
    refine (hi.owned.owned n hn).resolve_right ?_
    rintro ⟨t, ht⟩
    have := hi.closing.not_appending hal t
    revert ht this
    cases s.clients t <;> simp [ClientPc.owns, ClientPc.appending]
  have hstack : stack = [] := by
    have := hp.linked
    rw [hi.closing.empty he] at this
    exact linked_none.mp this
  have hchain : chain = [] := by
    have := hp.detached
    rw [he] at this
    exact linked_none.mp this
  have hbatch : s.batcher.batch = [] := by
    rw [he]
    rfl
  simpa [hstack, hchain, hbatch] using hp.mem_pushed.mp hpub

/-! ### What the callers handed over

The bytes a state holds are compared with the arguments of the calls, and those are read off the labels
of the run: what `append` does with its argument has no part in them. -/

/-- The calls of `append` so far: the arguments of the clients that have not yet taken a number, and the
arguments of all others, in the order in which the numbers were taken. -/
structure Calls (τ : Type) where
  waiting : τ → Option Bytes
  taken : List Bytes

/-- A call of `append` waits with its argument; the first access of the client after it is the
`fetch_add` on `seq`. -/
def Calls.next (c : Calls τ) : Label τ → Calls τ
  | .client t (.append record) => { c with waiting := Function.update c.waiting t (some record) }
  | .client t (.run _) =>
      match c.waiting t with
      | some record =>
          { waiting := Function.update c.waiting t none, taken := c.taken ++ [record] }
      | none => c
  | _ => c

/-- The calls of a run with the labels `ls`. -/
def callsOf (ls : List (Label τ)) : Calls τ := ls.foldl Calls.next ⟨fun _ => none, []⟩

/-- The records handed to `append` in a run, in the order of the `fetch_add` on `seq`. -/
def argsOf (ls : List (Label τ)) : List Bytes := (callsOf ls).taken

/-- The records of a batch as they were handed over. -/
def argBytes (args : List Bytes) (batch : List ℕ) : Bytes := batch.flatMap fun n => args.getD n []

/-- The state holds what the calls handed over. -/
structure Handed (c : Calls τ) (s : State τ) : Prop where
  waiting : ∀ t record, c.waiting t = some record ↔ s.clients t = .seqAdd record
  length : s.recs.length = c.taken.length
  data : ∀ n, s.recs.dataOf n = c.taken.getD n []

theorem callsOf_append (ls : List (Label τ)) (l : Label τ) :
    callsOf (ls ++ [l]) = (callsOf ls).next l := by
  simp [callsOf]

/-- A client that has its number already takes no other. -/
theorem Handed.next_run {c : Calls τ} {t : τ} (h : Handed c s) (b : Bool)
    (hpc : ∀ record, s.clients t ≠ .seqAdd record) : c.next (.client t (.run b)) = c := by
  have hnone : c.waiting t = none :=
    Option.eq_none_iff_forall_ne_some.mpr fun record hr => hpc record ((h.waiting t record).mp hr)
  simp only [Calls.next, hnone]

omit [DecidableEq τ] in
/-- A step that neither starts an append nor takes a number. -/
theorem Handed.frame {c : Calls τ} (h : Handed c s)
    (hpc : ∀ t record, s'.clients t = .seqAdd record ↔ s.clients t = .seqAdd record)
    (hlen : s'.recs.length = s.recs.length) (hdata : s'.recs.dataOf = s.recs.dataOf) : Handed c s' where
  waiting t record := (h.waiting t record).trans (hpc t record).symm
  length := hlen.trans h.length
  data n := by rw [hdata, h.data]

/-- Moving client `t` between two points that are not the start of an append. -/
theorem goto_eq_seqAdd {t : τ} {pc : ClientPc} (hfrom : ∀ record, s.clients t ≠ .seqAdd record)
    (hto : ∀ record, pc ≠ .seqAdd record) (u : τ) (record : Bytes) :
    (s.goto t pc).clients u = .seqAdd record ↔ s.clients u = .seqAdd record := by
  by_cases hu : u = t
  · subst hu
    simp [State.goto, hfrom, hto]
  · simp [State.goto, Function.update_of_ne hu]

theorem Handed.append {c : Calls τ} {t : τ} {record : Bytes} (h : Handed c s) :
    Handed (c.next (.client t (.append record)))
      { s.goto t (.seqAdd record) with borrowers := t :: s.borrowers } where
  waiting u r := by
    by_cases hu : u = t
    · subst hu
      simp [Calls.next, State.goto]
    · simpa [Calls.next, State.goto, Function.update_of_ne hu] using h.waiting u r
  length := h.length
  data := h.data

/-- The `fetch_add` gives the record the next number and boxes the argument under it. -/
theorem Handed.seqAdd {c : Calls τ} {t : τ} {b : Bool} {record : Bytes} {p : Pending} (h : Handed c s)
    (hpc : s.clients t = .seqAdd record) (hdata : p.data = record) {shared : Shared} :
    Handed (c.next (.client t (.run b)))
      { s.goto t (.pushLoad s.recs.length) with shared := shared, recs := s.recs ++ [p] } := by
  have hwait : c.waiting t = some record := (h.waiting t record).mpr hpc
  have hnext : c.next (.client t (.run b)) =
      { waiting := Function.update c.waiting t none, taken := c.taken ++ [record] } := by
    simp only [Calls.next, hwait]
  rw [hnext]
  refine ⟨fun u r => ?_, by simp [h.length], fun n => ?_⟩
  · by_cases hu : u = t
    · subst hu
      simp [State.goto]
    · simpa [State.goto, Function.update_of_ne hu] using h.waiting u r
  · rcases Nat.lt_trichotomy n s.recs.length with hn | rfl | hn
    · have hn' : n < c.taken.length := h.length ▸ hn
      show Heap.dataOf (s.recs ++ [p]) n = (c.taken ++ [record]).getD n []
      rw [s.recs.dataOf_append hn, h.data n, List.getD_append _ _ _ _ hn']
    · simp [Heap.dataOf, h.length, hdata]
    · have hout : (s.recs ++ [p])[n]? = none :=
        List.getElem?_eq_none (by rw [List.length_append, List.length_singleton]; exact hn)
      have hout' : (c.taken ++ [record])[n]? = none :=
        List.getElem?_eq_none (by rw [List.length_append, List.length_singleton, ← h.length]; exact hn)
      simp only [Heap.dataOf, List.getD_eq_getElem?_getD, hout, hout', Option.map_none]

theorem Handed.step {c : Calls τ} {l : Label τ} (h : Handed c s) (hto : StepTo maxBatch s l s') :
    Handed (c.next l) s' := by
  cases hto with
  | append _ _ => exact h.append
  | seqAdd hpc => exact h.seqAdd hpc rfl
  | poll hpc _ _ | dropStart hpc _ _ =>
      refine h.frame (goto_eq_seqAdd ?_ ?_) ?_ ?_ <;> simp [hpc, State.goto]
  | pushLoad hpc | pushOk hpc _ | pushFail hpc | countAdd hpc | pollReady hpc _ | pollWait hpc _
  | pollStore hpc | pollCheck hpc | dropStore hpc | dropJoin hpc _ =>
      rw [h.next_run _ (by simp [hpc])]
      refine h.frame (goto_eq_seqAdd ?_ ?_) ?_ ?_ <;> simp [hpc, State.goto, State.endPoll]
  | _ => exact h.frame (fun _ _ => Iff.rfl) (by simp) (by simp)

/-- Every run of the log holds what its calls handed over. -/
theorem handed_of_trace {ls : List (Label τ)} (hs : (machine τ file maxBatch).Trace ls s) :
    Handed (callsOf ls) s := by
  refine hs.invariant (I := fun ls s => Handed (callsOf ls) s) ?_ fun ls s l t _ h hst => ?_
  · rintro s rfl
    exact ⟨by simp [callsOf, State.new], rfl, by simp [callsOf, State.new, Heap.dataOf]⟩
  · rw [callsOf_append]
    exact h.step (stepTo_of_step hst)

omit [DecidableEq τ] in
theorem Handed.bytes {c : Calls τ} (h : Handed c s) (batch : List ℕ) :
    s.recs.bytes batch = argBytes c.taken batch :=
  List.flatMap_congr fun n _ => h.data n

omit [DecidableEq τ] in
theorem Handed.map_data {c : Calls τ} (h : Handed c s) : s.recs.map Pending.data = c.taken := by
  refine List.ext_getElem (by simp [h.length]) fun n hn hn' => ?_
  have hdata := h.data n
  have hlt : n < s.recs.length := by simpa using hn
  simpa [Heap.dataOf, hlt, hn'] using hdata

/-- What the log promises of a state: `file` are the contents it was opened over, `args` the records
handed to `append`, by sequence number. -/
structure Committed (file : Bytes) (args : List Bytes) (s : State τ) : Prop where
  /-- Each call has boxed its argument under the number it took. -/
  boxed : s.recs.map Pending.data = args
  numbered : ∀ n < args.length, s.recs.seqOf n = n
  /-- The committed batches follow the old contents, with no gap and no overlap. -/
  contents : s.file = file ++ argBytes args s.committed.flatten
  /-- A record is in at most one batch, at most once, and every batch is made of appended records. -/
  once : s.committed.flatten.Nodup
  appended : ∀ n ∈ s.committed.flatten, n < args.length
  /-- Batches are sorted by sequence number. -/
  sorted : ∀ batch ∈ s.committed, Sorted s.recs batch
  /-- A future is `Ready` only once its record is in the file. -/
  ready : ∀ n w, (n, w, true) ∈ s.polls → n ∈ s.committed.flatten
  /-- After the Batcher has exited nothing is left behind. -/
  flushed : s.batcher = .exited → ∀ n < args.length,
    n ∈ s.committed.flatten ∧ (s.recs.completionOf n).done = true

/-- **Group commit.**  In every state of every run the log keeps its promise.  And if the append of
`a` has returned in `s`, then in every later state `t` the record `a` stands in the file before every
record `b` that took its sequence number after `s`, so before every append called after `s`. -/
theorem group_commit {ls : List (Label τ)} (hs : (reliableMachine τ file maxBatch).Trace ls s) :
    Committed file (argsOf ls) s ∧
      ∀ t, (reliableMachine τ file maxBatch).StaysIn (fun _ => True) s t →
        ∀ a ∈ s.returned, ∀ b ∈ t.committed.flatten, (argsOf ls).length ≤ b →
          [a, b].Sublist t.committed.flatten := by
  have hi := inv_of_reachable hs.reachable
  have hargs := handed_of_trace hs.of_restrict
  obtain ⟨stack, chain, hp⟩ := hi.placed
  have hlen : s.recs.length = (argsOf ls).length := hargs.length
  have hlt : ∀ n ∈ s.committed.flatten, n < s.recs.length := fun n hn =>
    hi.owned.pushed_lt n (hp.mem_pushed.mpr (by tauto))
  rw [← hlen]
  constructor
  · exact {
      boxed := hargs.map_data
      numbered := fun n hn => hi.owned.seqOf_eq n (hlen ▸ hn)
      contents := hi.file.content.trans (by rw [hargs.bytes]; rfl)
      once := hp.committed_nodup hi.owned
      appended := fun n hn => hlen ▸ hlt n hn
      sorted := hi.file.sorted
      ready := fun n w hn => hi.signalled.sound n (hi.signalled.ready n w hn)
      flushed := fun he n hn => by
        have hn' := hi.mem_committed_of_exited he (hlen ▸ hn)
        refine ⟨hn', (hi.signalled.complete n hn').resolve_right ?_⟩
        rw [he]
        exact List.not_mem_nil }
  · intro t hst a ha
    have hold : ∀ b ∈ s.pushed, ¬ s.recs.length ≤ b :=
      fun b hb => (hi.owned.pushed_lt b hb).not_ge
    have hpa := hi.owned.returned a ha
    have h0 : Ahead a s.recs.length s :=
      ⟨hi.owned.pushed_lt a hpa, hpa, fun _ _ _ _ b hb hle => absurd hle (hold b hb),
        fun b hb hle => absurd hle (hlt b hb).not_ge⟩
    exact (hst.invariant hs.reachable h0 fun u l v hu _ _ hA hstep =>
      hA.step (inv_of_reachable hu) hstep).before

/-- The calls of one append and the pass of the Batcher that commits it. -/
def sampleRound (record : Bytes) : List (Label Unit) :=
  .client () (.append record) :: List.replicate 4 (.client () (.run true)) ++
    List.replicate 9 (.batcher .run)

/-- The state after a schedule of one client over a file of one byte. -/
def sampleAt (ls : List (Label Unit)) : State Unit :=
  (Machine.runFn (step 1) (.new Unit [7]) ls).getD (.new Unit [7])

theorem group_commit_sample :
    (argsOf (sampleRound [1, 2, 3]) = [[1, 2, 3]] ∧ 0 ∈ (sampleAt (sampleRound [1, 2, 3])).returned ∧
      (sampleAt (sampleRound [1, 2, 3] ++ sampleRound [4, 5])).file = [7, 1, 2, 3, 4, 5]) ∧
      Committed [7] [[1, 2, 3]] (sampleAt (sampleRound [1, 2, 3])) ∧
      [0, 1].Sublist (sampleAt (sampleRound [1, 2, 3] ++ sampleRound [4, 5])).committed.flatten := by
  have hrel : ∀ record, ∀ l ∈ sampleRound record, ∀ s, Reliable s l := by
    intro record l hl s
    simp only [sampleRound, List.cons_append, List.mem_cons, List.mem_append,
      List.mem_replicate] at hl
    rcases hl with rfl | ⟨_, rfl⟩ | ⟨_, rfl⟩ <;> trivial
  have hfirst : (reliableMachine Unit [7] 1).Trace ([] ++ sampleRound [1, 2, 3])
      (sampleAt (sampleRound [1, 2, 3])) :=
    Machine.Trace.runFn (f := step 1) (.start rfl) (fun s t l hl hst => ⟨hrel _ l hl s, hst⟩) (by rfl)
  have hnext : (reliableMachine Unit [7] 1).StaysIn (fun _ => True) (sampleAt (sampleRound [1, 2, 3]))
      (sampleAt (sampleRound [1, 2, 3] ++ sampleRound [4, 5])) :=
    Machine.StaysIn.runFn (f := step 1) (.refl trivial)
      (fun s t l hl hst => ⟨⟨hrel _ l hl s, hst⟩, trivial⟩) (by rfl)
  have hs := group_commit hfirst
  exact ⟨⟨by decide, by decide, by decide⟩, hs.1,
    hs.2 _ hnext 0 (by decide) 1 (by decide) (by decide)⟩

end ZeroKv.GroupCommit
