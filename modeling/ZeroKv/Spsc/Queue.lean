/-
# ZeroKv.Spsc.Queue — the ring as a queue that programs can be run on.

`ZeroKv.Spsc` says what a ring promises in each of its states.  Here the same invariant is brought into the
form that `ZeroKv.Lib.Queues` asks of a queue: what a push or a pop does to the contents, and in which of its
steps.  A push takes effect when it stores `tail`, or, when the ring is full, when it loads `head`; a pop when
it stores `head`, or, when the ring is empty, when it loads `tail`.
-/
import ZeroKv.Lib.Queues
import ZeroKv.Spsc

namespace ZeroKv.Spsc

variable {T : Type}

/-- What a program point of `push` is to the caller. -/
def ProducerPc.call : ProducerPc T → Call T (Except T Unit)
  | .idle => .idle
  | .loadTail v | .loadHead v _ | .write v _ | .storeTail v _ => .running v
  | .ret r => .returned r

/-- What a program point of `pop` is to the caller; `fault` is never reached. -/
def ConsumerPc.call : ConsumerPc T → Call Unit (Option T)
  | .idle | .fault => .idle
  | .loadHead | .loadTail _ | .read _ | .storeHead _ _ => .running ()
  | .ret r => .returned r

/-- The steps a push has before it. -/
def ProducerPc.rank : ProducerPc T → ℕ
  | .loadTail _ => 3
  | .loadHead _ _ => 2
  | .write _ _ => 1
  | .idle | .storeTail _ _ | .ret _ => 0

/-- The steps a pop has before it. -/
def ConsumerPc.rank : ConsumerPc T → ℕ
  | .loadHead => 3
  | .loadTail _ => 2
  | .read _ => 1
  | .idle | .storeHead _ _ | .ret _ | .fault => 0

/-- The values in flight. -/
def State.contents (s : State T) : List T := s.pushed.drop s.popped.length

/-- The invariant of a ring whose consumer only ever calls `pop`. -/
structure Popped (w cap : ℕ) (s : State T) : Prop where
  inv : Inv w cap s
  drain : s.drain = none

section Steps

variable {w c : ℕ} {s : State T}

theorem Popped.producer_spec (hc : c < w) (h : Popped w (2 ^ c) s) (hbusy : s.producer.call ≠ .idle) :
    ∃ t, stepProducer w s = some t ∧ Popped w (2 ^ c) t ∧
      ProducerStep (2 ^ c) s.contents s.producer.call t.contents t.producer.call ∧
      t.consumer.call = s.consumer.call ∧
      ∀ v, t.producer.call = .running v → t.producer.rank < s.producer.rank := by
  have hp := h.inv.producer
  have hle := h.inv.le
  have hkeep : ∀ {t}, stepProducer w s = some t → t.drain = s.drain → Popped w (2 ^ c) t :=
    fun hst hd => ⟨stepProducer_inv hc h.inv hst, hd.trans h.drain⟩
  unfold ProducerOk at hp
  cases hpc : s.producer with
  | idle => simp [hpc, ProducerPc.call] at hbusy
  | loadTail v =>
      have hst : stepProducer w s = some { s with producer := .loadHead v s.ring.tail } := by
        simp only [stepProducer, hpc]
      exact ⟨_, hst, hkeep hst rfl, .silent, rfl, fun _ _ => by simp [ProducerPc.rank]⟩
  | loadHead v tail =>
      simp only [hpc] at hp
      -- only the producer moves `tail`, so the difference it computes is the number of elements
      have hlen : wrappingSub w tail s.ring.head = s.contents.length := by
        rw [hp, ← h.inv.tail, h.inv.inFlight hc, State.contents, List.length_drop]
      by_cases hfull : wrappingSub w tail s.ring.head = s.ring.buf.length
      · have hst : stepProducer w s = some { s with producer := .ret (.error v) } := by
          simp only [stepProducer, hpc, if_pos hfull]
        refine ⟨_, hst, hkeep hst rfl, .refuse ?_, rfl, fun _ he => by cases he⟩
        rw [← hlen, hfull, h.inv.len]
      · have hst : stepProducer w s = some { s with producer := .write v tail } := by
          simp only [stepProducer, hpc, if_neg hfull]
        exact ⟨_, hst, hkeep hst rfl, .silent, rfl, fun _ _ => by simp [ProducerPc.rank]⟩
  | write v tail =>
      have hst : stepProducer w s = some { s with
          ring := { s.ring with buf := s.ring.buf.set (tail &&& s.ring.mask) (some v) }
          producer := .storeTail v tail } := by
        simp only [stepProducer, hpc]
      exact ⟨_, hst, hkeep hst rfl, .silent, rfl, fun _ _ => by simp [ProducerPc.rank]⟩
  -- the one visible step of an accepted push
  | storeTail v tail =>
      simp only [hpc] at hp
      have hst : stepProducer w s = some { s with
          ring := { s.ring with tail := wrappingAdd w tail 1 }
          producer := .ret (.ok ())
          pushed := s.pushed ++ [v] } := by
        simp only [stepProducer, hpc]
      refine ⟨_, hst, hkeep hst rfl, ?_, rfl, fun _ he => by cases he⟩
      have hroom : s.contents.length < 2 ^ c := by
        rw [State.contents, List.length_drop]
        omega
      show ProducerStep _ s.contents _ ((s.pushed ++ [v]).drop s.popped.length) _
      rw [List.drop_append_of_le_length hle]
      exact .accept hroom
  | ret r =>
      have hst : stepProducer w s = some { s with producer := .idle } := by simp only [stepProducer, hpc]
      exact ⟨_, hst, hkeep hst rfl, .finish, rfl, fun _ he => by cases he⟩

theorem Popped.consumer_spec (hc : c < w) (h : Popped w (2 ^ c) s) (hbusy : s.consumer.call ≠ .idle) :
    ∃ t, stepConsumer w s = some t ∧ Popped w (2 ^ c) t ∧
      ConsumerStep s.contents s.consumer.call t.contents t.consumer.call ∧
      t.producer.call = s.producer.call ∧
      (t.consumer.call = .running () → t.consumer.rank < s.consumer.rank) := by
  have hcons := h.inv.consumer
  have hkeep : ∀ {t}, stepConsumer w s = some t → t.drain = s.drain → Popped w (2 ^ c) t :=
    fun hst hd => ⟨stepConsumer_inv hc h.inv hst, hd.trans h.drain⟩
  unfold ConsumerOk at hcons
  cases hpc : s.consumer with
  | idle | fault => simp [hpc, ConsumerPc.call] at hbusy
  | loadHead =>
      have hst : stepConsumer w s = some { s with consumer := .loadTail s.ring.head } := by
        simp only [stepConsumer, hpc]
      exact ⟨_, hst, hkeep hst rfl, .silent, rfl, fun _ => by simp [ConsumerPc.rank]⟩
  | loadTail head =>
      simp only [hpc] at hcons
      by_cases he : head = s.ring.tail
      · have hst : stepConsumer w s = some { s with consumer := .ret none } := by
          simp only [stepConsumer, hpc, if_pos he]
        have hnil : s.contents = [] := by
          have heq := (h.inv.empty_iff hc).mp (by rw [h.inv.head, ← hcons, he])
          rw [State.contents, heq, List.drop_length]
        refine ⟨_, hst, hkeep hst rfl, ?_, rfl, fun hrun => by cases hrun⟩
        show ConsumerStep s.contents _ s.contents _
        rw [hnil]
        exact .none
      · have hst : stepConsumer w s = some { s with consumer := .read head } := by
          simp only [stepConsumer, hpc, if_neg he]
        exact ⟨_, hst, hkeep hst rfl, .silent, rfl, fun _ => by simp [ConsumerPc.rank]⟩
  | read head =>
      simp only [hpc] at hcons
      obtain ⟨hhead, hlt⟩ := hcons
      have hslot : s.ring.slot head = some (s.pushed.get ⟨_, hlt⟩) := by
        rw [hhead, h.inv.slot_live hc le_rfl hlt]
        exact List.getElem?_eq_getElem hlt
      have hst : stepConsumer w s =
          some { s with consumer := .storeHead head (s.pushed.get ⟨_, hlt⟩) } := by
        simp only [stepConsumer, hpc, hslot]
      exact ⟨_, hst, hkeep hst rfl, .silent, rfl, fun _ => by simp [ConsumerPc.rank]⟩
  -- the one visible step of a pop that returns a value
  | storeHead head v =>
      simp only [hpc] at hcons
      have hst : stepConsumer w s = some { s with
          ring := { s.ring with head := wrappingAdd w head 1 }
          consumer := .ret (some v)
          popped := s.popped ++ [v] } := by
        simp only [stepConsumer, hpc]
      refine ⟨_, hst, hkeep hst rfl, ?_, rfl, fun hrun => by cases hrun⟩
      obtain ⟨hlt, hv⟩ := List.getElem?_eq_some_iff.mp hcons.2
      have hcont : s.contents = v :: s.pushed.drop (s.popped ++ [v]).length := by
        rw [State.contents, List.drop_eq_getElem_cons hlt, hv, List.length_append, List.length_singleton]
      exact hcont ▸ .take
  | ret r =>
      have hst : stepConsumer w s = some { s with consumer := .idle } := by
        cases r <;> simp [stepConsumer, hpc, afterPop, h.drain]
      exact ⟨_, hst, hkeep hst rfl, .finish, rfl, fun hrun => by cases hrun⟩

end Steps

/-- The ring of `channel(capacity)` on a machine with `w`-bit words, as a queue. -/
def ringQueue (T : Type) {w capacity : ℕ} (hcap : roundedCap capacity ≤ 2 ^ (w - 1)) :
    QueueImpl T (roundedCap capacity) where
  State := State T
  new := initial T capacity
  contents := State.contents
  producer s := s.producer.call
  consumer s := s.consumer.call
  push s v := step w s (.push v)
  pop s := step w s .pop
  stepProducer s := step w s .producer
  stepConsumer s := step w s .consumer
  producerRank s := s.producer.rank
  consumerRank s := s.consumer.rank
  Ok := Popped w (roundedCap capacity)
  ok_new := ⟨initial_inv capacity, rfl⟩
  contents_new := rfl
  producer_new := rfl
  consumer_new := rfl
  push_spec := by
    intro s v h hidle
    cases hpc : s.producer with
    | idle =>
        refine ⟨{ s with producer := .loadTail v }, by simp only [step, hpc],
          ⟨{ h.inv with producer := trivial }, h.drain⟩, rfl, rfl, rfl⟩
    | loadTail | loadHead | write | storeTail | ret => simp [hpc, ProducerPc.call] at hidle
  pop_spec := by
    intro s h hidle
    cases hpc : s.consumer with
    | idle =>
        refine ⟨{ s with consumer := .loadHead }, by simp only [step, hpc],
          ⟨{ h.inv with consumer := trivial }, h.drain⟩, rfl, rfl, rfl⟩
    | fault =>
        have := h.inv.consumer
        simp [ConsumerOk, hpc] at this
    | loadHead | loadTail | read | storeHead | ret => simp [hpc, ConsumerPc.call] at hidle
  producer_spec h hbusy := h.producer_spec (exponent_lt hcap) hbusy
  consumer_spec h hbusy := h.consumer_spec (exponent_lt hcap) hbusy

end ZeroKv.Spsc
