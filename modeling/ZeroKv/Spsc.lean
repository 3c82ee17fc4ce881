/-
# ZeroKv.Spsc — the single-producer single-consumer ring, across cursor wraparound.

`spsc.rs` keeps two free-running cursors in words of `w` bits and masks them into a power-of-two
buffer.  The producer and the consumer are modelled one atomic access at a time: each cursor load,
the slot write, the slot read and each cursor store is a step of its own, and the two sides
interleave freely.  The true cursors are the lengths of the two history variables `pushed` and
`popped`; the words in memory are their residues.

The slots are `MaybeUninit`: a slot that was never written is `none`, and a read leaves the bytes
where they are, so a slot keeps its stale value until it is written again.  Reading a slot that was
never written, or indexing outside the buffer, sends the consumer to `fault`.
-/
import ZeroKv.Lib.Machine
import ZeroKv.Lib.Word

namespace ZeroKv.Spsc

/-! ## The ring -/

/-- `Ring<T>`. -/
structure Ring (T : Type) where
  buf : List (Option T)
  mask : ℕ
  tail : ℕ
  head : ℕ

/-- The capacity `channel` rounds a request to. -/
def roundedCap (capacity : ℕ) : ℕ := nextPowerOfTwo (max capacity 2)

/-- `channel`: every slot uninitialised, both cursors at zero. -/
def channel (T : Type) (capacity : ℕ) : Ring T where
  buf := List.replicate (roundedCap capacity) none
  mask := roundedCap capacity - 1
  tail := 0
  head := 0

namespace Ring

variable {T : Type}

/-- The value a slot holds, if its index is in bounds and it was ever written. -/
def slot (r : Ring T) (cursor : ℕ) : Option T := (r.buf[cursor &&& r.mask]?).join

/-- The loop of `Ring::drop` from cursor `i`: the values dropped, in order, or `none` once an
uninitialised slot would be dropped.  The cursor takes `2 ^ w` values, which bounds the loop. -/
def dropFrom (w : ℕ) (r : Ring T) : ℕ → ℕ → Option (List T)
  | 0, _ => none
  | fuel + 1, i =>
      if i = r.tail then some []
      else do
        let v ← r.slot i
        let rest ← dropFrom w r fuel (wrappingAdd w i 1)
        pure (v :: rest)

/-- `Ring::drop`. -/
def drop (w : ℕ) (r : Ring T) : Option (List T) := r.dropFrom w (2 ^ w) r.head

end Ring

/-! ## The two endpoints -/

/-- Program points of `Producer::push`; `ret` holds the result about to be returned. -/
inductive ProducerPc (T : Type)
  | idle
  | loadTail (value : T)
  | loadHead (value : T) (tail : ℕ)
  | write (value : T) (tail : ℕ)
  | storeTail (value : T) (tail : ℕ)
  | ret (result : Except T Unit)

/-- The value a running `push` holds, or hands back because the ring was full. -/
def ProducerPc.value {T : Type} : ProducerPc T → Option T
  | .loadTail v | .loadHead v _ | .write v _ | .storeTail v _ | .ret (.error v) => some v
  | .idle | .ret (.ok ()) => none

/-- Program points of `Consumer::pop`. -/
inductive ConsumerPc (T : Type)
  | idle
  | loadHead
  | loadTail (head : ℕ)
  | read (head : ℕ)
  | storeHead (head : ℕ) (value : T)
  | ret (result : Option T)
  | fault

/-- The loop state of `Consumer::drain`: its bound and the count handled so far. -/
structure Drain where
  max : ℕ
  n : ℕ

/-- One ring with its two endpoints.  `pushed` and `popped` are history variables: the values whose
push returned `Ok`, and the values handed out by `pop` or by `drain`. -/
structure State (T : Type) where
  ring : Ring T
  producer : ProducerPc T
  consumer : ConsumerPc T
  drain : Option Drain
  pushed : List T
  popped : List T

/-- What a step does: one endpoint starts a call or takes the next step of the call it is in. -/
inductive Label (T : Type)
  | push (value : T)
  | producer
  | pop
  | drain (max : ℕ)
  | consumer

variable {T : Type}

/-- The next atomic access of a running `push`. -/
def stepProducer (w : ℕ) (s : State T) : Option (State T) :=
  match s.producer with
  | .idle => none
  | .loadTail v => some { s with producer := .loadHead v s.ring.tail }
  | .loadHead v tail =>
      if wrappingSub w tail s.ring.head = s.ring.buf.length then
        some { s with producer := .ret (.error v) }
      else some { s with producer := .write v tail }
  | .write v tail =>
      some { s with
        ring := { s.ring with buf := s.ring.buf.set (tail &&& s.ring.mask) (some v) }
        producer := .storeTail v tail }
  | .storeTail v tail =>
      some { s with
        ring := { s.ring with tail := wrappingAdd w tail 1 }
        producer := .ret (.ok ())
        pushed := s.pushed ++ [v] }
  | .ret _ => some { s with producer := .idle }

/-- What the consumer does with the result of a `pop`: a plain `pop` returns it, `drain` counts it
and goes round its loop. -/
def afterPop (s : State T) : Option T → State T
  | none => { s with consumer := .idle, drain := none }
  | some _ =>
      match s.drain with
      | none => { s with consumer := .idle }
      | some d =>
          if d.n + 1 < d.max then
            { s with consumer := .loadHead, drain := some { d with n := d.n + 1 } }
          else { s with consumer := .idle, drain := none }

/-- The next atomic access of a running `pop` or `drain`. -/
def stepConsumer (w : ℕ) (s : State T) : Option (State T) :=
  match s.consumer with
  | .idle => none
  | .loadHead => some { s with consumer := .loadTail s.ring.head }
  | .loadTail head =>
      if head = s.ring.tail then some { s with consumer := .ret none }
      else some { s with consumer := .read head }
  | .read head =>
      match s.ring.slot head with
      | some v => some { s with consumer := .storeHead head v }
      | none => some { s with consumer := .fault }
  | .storeHead head v =>
      some { s with
        ring := { s.ring with head := wrappingAdd w head 1 }
        consumer := .ret (some v)
        popped := s.popped ++ [v] }
  | .ret result => some (afterPop s result)
  | .fault => none

/-- One step of the pair of endpoints. -/
def step (w : ℕ) (s : State T) : Label T → Option (State T)
  | .push v =>
      match s.producer with
      | .idle => some { s with producer := .loadTail v }
      | _ => none
  | .producer => stepProducer w s
  | .pop =>
      match s.consumer with
      | .idle => some { s with consumer := .loadHead }
      | _ => none
  | .drain max =>
      match s.consumer with
      | .idle =>
          if 0 < max then some { s with consumer := .loadHead, drain := some ⟨max, 0⟩ }
          else some s
      | _ => none
  | .consumer => stepConsumer w s

/-- A fresh channel, both endpoints idle. -/
def initial (T : Type) (capacity : ℕ) : State T where
  ring := channel T capacity
  producer := .idle
  consumer := .idle
  drain := none
  pushed := []
  popped := []

/-- The ring on a machine with `w`-bit words. -/
def machine (T : Type) (w capacity : ℕ) : Machine (State T) (Label T) :=
  .ofFn (initial T capacity) (step w)

/-! ## The invariant

All of it is phrased over the true counts `s.popped.length` and `s.pushed.length`; `cap` is the
number of slots. -/

/-- What the producer's local copy of `tail` means at each program point, and that the slot it is
about to publish is free. -/
def ProducerOk (w cap : ℕ) (s : State T) : Prop :=
  match s.producer with
  | .idle | .loadTail _ | .ret _ => True
  | .loadHead _ tail => tail = s.pushed.length % 2 ^ w
  | .write _ tail =>
      tail = s.pushed.length % 2 ^ w ∧ s.pushed.length < s.popped.length + cap
  | .storeTail v tail =>
      tail = s.pushed.length % 2 ^ w ∧ s.pushed.length < s.popped.length + cap ∧
        s.ring.buf[s.pushed.length % cap]? = some (some v)

/-- What the consumer's local copy of `head` means at each program point, and that the slot it is
about to read is live. -/
def ConsumerOk (w : ℕ) (s : State T) : Prop :=
  match s.consumer with
  | .idle | .loadHead | .ret _ => True
  | .loadTail head => head = s.popped.length % 2 ^ w
  | .read head => head = s.popped.length % 2 ^ w ∧ s.popped.length < s.pushed.length
  | .storeHead head v =>
      head = s.popped.length % 2 ^ w ∧ s.pushed[s.popped.length]? = some v
  | .fault => False

/-- The representation invariant of the ring. -/
structure Inv (w cap : ℕ) (s : State T) : Prop where
  len : s.ring.buf.length = cap
  mask : s.ring.mask = cap - 1
  head : s.ring.head = s.popped.length % 2 ^ w
  tail : s.ring.tail = s.pushed.length % 2 ^ w
  prefixed : s.popped <+: s.pushed
  bounded : s.pushed.length ≤ s.popped.length + cap
  live : ∀ i, s.popped.length ≤ i → i < s.pushed.length →
    s.ring.buf[i % cap]? = some s.pushed[i]?
  producer : ProducerOk w cap s
  consumer : ConsumerOk w s

section

variable {w c : ℕ} {s t : State T}

theorem Inv.le (h : Inv w (2 ^ c) s) : s.popped.length ≤ s.pushed.length :=
  h.prefixed.length_le

/-- The distance of the two words is the number of values in flight. -/
theorem Inv.inFlight (hc : c < w) (h : Inv w (2 ^ c) s) :
    wrappingSub w s.ring.tail s.ring.head = s.pushed.length - s.popped.length := by
  have hpos : 0 < 2 ^ c := Nat.two_pow_pos c
  have hpow : 2 ^ c < 2 ^ w := Nat.pow_lt_pow_right Nat.one_lt_two hc
  have hb := h.bounded
  rw [h.tail, h.head]
  exact wrappingSub_mod h.le (by omega)

/-- The two words are equal exactly when nothing is in flight. -/
theorem Inv.empty_iff (hc : c < w) (h : Inv w (2 ^ c) s) :
    s.ring.head = s.ring.tail ↔ s.popped = s.pushed := by
  have hpos : 0 < 2 ^ c := Nat.two_pow_pos c
  have hpow : 2 ^ c < 2 ^ w := Nat.pow_lt_pow_right Nat.one_lt_two hc
  have hb := h.bounded
  have hle := h.le
  constructor
  · intro heq
    rw [h.head, h.tail] at heq
    exact h.prefixed.eq_of_length (eq_of_mod_eq_of_lt hle (by omega) heq)
  · intro heq
    rw [h.head, h.tail, heq]

/-- The slot a live count points at holds the value pushed at that count. -/
theorem Inv.slot_live (hc : c < w) (h : Inv w (2 ^ c) s) {i : ℕ}
    (hlo : s.popped.length ≤ i) (hhi : i < s.pushed.length) :
    s.ring.slot (i % 2 ^ w) = s.pushed[i]? := by
  rw [Ring.slot, h.mask, mod_land_mask hc.le, h.live i hlo hhi, Option.join_some]

/-! ## Each step keeps the invariant -/

theorem initial_inv (capacity : ℕ) :
    Inv w (roundedCap capacity) (initial T capacity) where
  len := by simp [initial, channel]
  mask := rfl
  head := by simp [initial, channel]
  tail := by simp [initial, channel]
  prefixed := List.nil_prefix
  bounded := by simp [initial]
  live := by simp [initial]
  producer := trivial
  consumer := trivial

/-- Writing the slot at the producer's cursor leaves every live slot alone: the live counts lie less
than `cap` below the cursor, so none of them shares its residue. -/
theorem Inv.live_of_write (h : Inv w (2 ^ c) s) (hfree : s.pushed.length < s.popped.length + 2 ^ c)
    (v : T) (i : ℕ) (hlo : s.popped.length ≤ i) (hhi : i < s.pushed.length) :
    (s.ring.buf.set (s.pushed.length % 2 ^ c) (some v))[i % 2 ^ c]? = some s.pushed[i]? := by
  have hne : s.pushed.length % 2 ^ c ≠ i % 2 ^ c := by
    intro heq
    have := eq_of_mod_eq_of_lt hhi.le (by omega) heq.symm
    omega
  rw [List.getElem?_set_ne hne, h.live i hlo hhi]

/-- The consumer relies on a lower bound of `pushed.length` and on values already pushed, so a push
does not disturb it. -/
theorem ConsumerOk.push {v : T} (h : ConsumerOk w s) (hcons : t.consumer = s.consumer)
    (hpop : t.popped = s.popped) (hpush : t.pushed = s.pushed ++ [v]) : ConsumerOk w t := by
  unfold ConsumerOk at h ⊢
  rw [hcons, hpop, hpush]
  cases hc : s.consumer with
  | idle | loadHead | ret => trivial
  | loadTail head => simpa only [hc] using h
  | fault => simp [hc] at h
  | read head =>
      simp only [hc] at h
      refine ⟨h.1, ?_⟩
      have := h.2
      simp only [List.length_append, List.length_singleton]
      omega
  | storeHead head x =>
      simp only [hc] at h
      have hlt : s.popped.length < s.pushed.length := (List.getElem?_eq_some_iff.mp h.2).1
      exact ⟨h.1, by rw [List.getElem?_append_left hlt, h.2]⟩

theorem stepProducer_inv (hc : c < w) (h : Inv w (2 ^ c) s) (hst : stepProducer w s = some t) :
    Inv w (2 ^ c) t := by
  have hp := h.producer
  unfold ProducerOk at hp
  cases hpc : s.producer with
  | idle => simp [stepProducer, hpc] at hst
  | loadTail v =>
      simp only [stepProducer, hpc, Option.some.injEq] at hst
      subst hst
      exact { h with producer := h.tail }
  | loadHead v tail =>
      simp only [hpc] at hp
      simp only [stepProducer, hpc] at hst
      split at hst
      · cases hst
        exact { h with producer := trivial }
      · rename_i hfull
        cases hst
        -- the room found here stays until the push ends: only this side fills slots
        have hfree : s.pushed.length < s.popped.length + 2 ^ c := by
          have hle := h.le
          have hb := h.bounded
          rw [hp, ← h.tail, h.inFlight hc, h.len] at hfull
          omega
        exact { h with producer := ⟨hp, hfree⟩ }
  | write v tail =>
      simp only [hpc] at hp
      simp only [stepProducer, hpc, Option.some.injEq] at hst
      subst hst
      obtain ⟨htail, hfree⟩ := hp
      have hidx : tail &&& s.ring.mask = s.pushed.length % 2 ^ c := by
        rw [htail, h.mask, mod_land_mask hc.le]
      have hlt : s.pushed.length % 2 ^ c < s.ring.buf.length := by
        rw [h.len]
        exact Nat.mod_lt _ (Nat.two_pow_pos c)
      refine { h with len := ?_, live := ?_, producer := ⟨htail, hfree, ?_⟩ }
      · simp [h.len]
      · intro i hlo hhi
        simp only [hidx]
        exact h.live_of_write hfree v i hlo hhi
      · simp [hidx, hlt]
  | storeTail v tail =>
      simp only [hpc] at hp
      simp only [stepProducer, hpc, Option.some.injEq] at hst
      subst hst
      obtain ⟨htail, hfree, hslot⟩ := hp
      refine
        { h with
          tail := ?_, prefixed := ?_, bounded := ?_, live := ?_, producer := trivial,
          consumer := h.consumer.push rfl rfl rfl }
      · simp [htail, wrappingAdd_mod]
      · exact h.prefixed.trans (List.prefix_append _ _)
      · simp only [List.length_append, List.length_singleton]
        omega
      · intro i hlo hhi
        simp only [List.length_append, List.length_singleton] at hhi
        rcases Nat.lt_succ_iff_lt_or_eq.mp hhi with hold | rfl
        · rw [List.getElem?_append_left hold]
          exact h.live i hlo hold
        · simpa using hslot
  | ret r =>
      simp only [stepProducer, hpc, Option.some.injEq] at hst
      subst hst
      exact { h with producer := trivial }

/-- A pop only raises the lower bound the producer relies on. -/
theorem ProducerOk.pop {cap : ℕ} (h : ProducerOk w cap s) (hprod : t.producer = s.producer)
    (hpush : t.pushed = s.pushed) (hbuf : t.ring.buf = s.ring.buf)
    (hpop : s.popped.length ≤ t.popped.length) : ProducerOk w cap t := by
  unfold ProducerOk at h ⊢
  rw [hprod, hpush, hbuf]
  cases hc : s.producer with
  | idle | loadTail | ret => trivial
  | loadHead v tail => simpa only [hc] using h
  | write v tail =>
      simp only [hc] at h
      exact ⟨h.1, by omega⟩
  | storeTail v tail =>
      simp only [hc] at h
      exact ⟨h.1, by omega, h.2.2⟩

theorem afterPop_inv {cap : ℕ} (h : Inv w cap s) (r : Option T) : Inv w cap (afterPop s r) := by
  unfold afterPop
  split
  · exact { h with consumer := trivial }
  · split
    · exact { h with consumer := trivial }
    · split <;> exact { h with consumer := trivial }

theorem stepConsumer_inv (hc : c < w) (h : Inv w (2 ^ c) s) (hst : stepConsumer w s = some t) :
    Inv w (2 ^ c) t := by
  have hcons := h.consumer
  unfold ConsumerOk at hcons
  cases hpc : s.consumer with
  | idle => simp [stepConsumer, hpc] at hst
  | loadHead =>
      simp only [stepConsumer, hpc, Option.some.injEq] at hst
      subst hst
      exact { h with consumer := h.head }
  | loadTail head =>
      simp only [hpc] at hcons
      simp only [stepConsumer, hpc] at hst
      split at hst
      · cases hst
        exact { h with consumer := trivial }
      · rename_i hne
        cases hst
        -- the positions differ, so the counts behind them do
        have hlt : s.popped.length < s.pushed.length := by
          refine lt_of_le_of_ne h.le fun heq => hne ?_
          rw [hcons, h.tail, heq]
        exact { h with consumer := ⟨hcons, hlt⟩ }
  | read head =>
      simp only [hpc] at hcons
      obtain ⟨hhead, hlt⟩ := hcons
      -- between `head` and `tail` every slot holds the value pushed there
      have hslot : s.ring.slot head = s.pushed[s.popped.length]? := by
        rw [hhead]
        exact h.slot_live hc le_rfl hlt
      rw [List.getElem?_eq_getElem hlt] at hslot
      simp only [stepConsumer, hpc, hslot, Option.some.injEq] at hst
      subst hst
      exact { h with consumer := ⟨hhead, List.getElem?_eq_getElem hlt⟩ }
  | storeHead head v =>
      simp only [hpc] at hcons
      obtain ⟨hhead, hv⟩ := hcons
      simp only [stepConsumer, hpc, Option.some.injEq] at hst
      subst hst
      have hlen : (s.popped ++ [v]).length = s.popped.length + 1 := by simp
      refine
        { h with
          head := ?_, prefixed := ?_, bounded := ?_, live := ?_, consumer := trivial,
          producer := h.producer.pop rfl rfl rfl (by simp) }
      · simp [hhead, wrappingAdd_mod]
      · obtain ⟨rest, hrest⟩ := h.prefixed
        rw [← hrest, List.getElem?_append_right le_rfl, Nat.sub_self] at hv
        cases rest with
        | nil => simp at hv
        | cons x rest =>
            simp only [List.getElem?_cons_zero, Option.some.injEq] at hv
            exact ⟨rest, by rw [← hrest, hv]; simp⟩
      · have := h.bounded
        simp only [hlen]
        omega
      · intro i hlo hhi
        exact h.live i (by simp only [hlen] at hlo; omega) hhi
  | ret r =>
      simp only [stepConsumer, hpc, Option.some.injEq] at hst
      subst hst
      exact afterPop_inv h r
  | fault => simp [hpc] at hcons

theorem step_inv (hc : c < w) (h : Inv w (2 ^ c) s) {l : Label T} (hst : step w s l = some t) :
    Inv w (2 ^ c) t := by
  cases l with
  | producer => exact stepProducer_inv hc h hst
  | consumer => exact stepConsumer_inv hc h hst
  | push v =>
      simp only [step] at hst
      split at hst <;> cases hst
      exact { h with producer := trivial }
  | pop =>
      simp only [step] at hst
      split at hst <;> cases hst
      exact { h with consumer := trivial }
  | drain max =>
      simp only [step] at hst
      split at hst
      · split at hst <;> cases hst
        · exact { h with consumer := trivial }
        · exact h
      · cases hst

end

/-- The rounded capacity is a power of two.  Where it leaves the top bit of the word free the exponent is
smaller than the width of the word. -/
theorem roundedCap_eq (capacity : ℕ) : roundedCap capacity = 2 ^ Nat.clog 2 (max capacity 2) := rfl

theorem exponent_lt {w capacity : ℕ} (hcap : roundedCap capacity ≤ 2 ^ (w - 1)) :
    Nat.clog 2 (max capacity 2) < w := by
  have hle : Nat.clog 2 (max capacity 2) ≤ w - 1 := by
    rwa [roundedCap_eq, Nat.pow_le_pow_iff_right Nat.one_lt_two] at hcap
  have hpos : 0 < Nat.clog 2 (max capacity 2) := Nat.clog_pos Nat.one_lt_two (by omega)
  omega

theorem reachable_inv {w capacity : ℕ} (hcap : roundedCap capacity ≤ 2 ^ (w - 1)) {s : State T}
    (hs : (machine T w capacity).Reachable s) : Inv w (roundedCap capacity) s := by
  refine hs.invariant ?_ ?_
  · rintro s rfl
    exact initial_inv capacity
  · intro s l t _ hi hst
    exact step_inv (exponent_lt hcap) hi hst

/-! ## Dropping the ring -/

/-- The drop loop from a live count drops the values pushed from that count on, in order. -/
theorem Inv.dropFrom_eq {w c : ℕ} {s : State T} (hc : c < w) (h : Inv w (2 ^ c) s) (k : ℕ) :
    ∀ i fuel, s.popped.length ≤ i → i + k = s.pushed.length → k < fuel →
      s.ring.dropFrom w fuel (i % 2 ^ w) = some (s.pushed.drop i) := by
  have hpow : 2 ^ c < 2 ^ w := Nat.pow_lt_pow_right Nat.one_lt_two hc
  have hb := h.bounded
  induction k with
  | zero =>
      intro i fuel hlo hi hfuel
      obtain ⟨fuel, rfl⟩ := Nat.exists_eq_succ_of_ne_zero hfuel.ne'
      rw [Nat.add_zero] at hi
      simp [Ring.dropFrom, h.tail, hi]
  | succ k ih =>
      intro i fuel hlo hi hfuel
      obtain ⟨fuel, rfl⟩ := Nat.exists_eq_succ_of_ne_zero (Nat.ne_zero_of_lt hfuel)
      have hlt : i < s.pushed.length := by omega
      have hne : i % 2 ^ w ≠ s.ring.tail := by
        rw [h.tail]
        intro heq
        have := eq_of_mod_eq_of_lt hlt.le (by omega) heq
        omega
      have hrest := ih (i + 1) fuel (by omega) (by omega) (by omega)
      simp only [Ring.dropFrom, if_neg hne, h.slot_live hc hlo hlt, List.getElem?_eq_getElem hlt,
        wrappingAdd_mod, hrest, List.drop_eq_getElem_cons hlt]
      rfl

theorem Inv.drop_eq {w c : ℕ} {s : State T} (hc : c < w) (h : Inv w (2 ^ c) s) :
    s.ring.drop w = some (s.pushed.drop s.popped.length) := by
  have hpow : 2 ^ c < 2 ^ w := Nat.pow_lt_pow_right Nat.one_lt_two hc
  have hb := h.bounded
  have hle := h.le
  rw [Ring.drop, h.head]
  exact h.dropFrom_eq hc (s.pushed.length - s.popped.length) _ _ le_rfl (by omega) (by omega)

/-! ## The ring is a bounded FIFO queue -/

/-- What a bounded FIFO queue of `cap` places promises in a state of the ring. -/
structure BoundedFifo (w cap : ℕ) (s : State T) : Prop where
  /-- No loss, duplication or reordering. -/
  order : s.popped <+: s.pushed
  /-- The distance of the two words counts the values in flight. -/
  inFlight : wrappingSub w s.ring.tail s.ring.head = s.pushed.length - s.popped.length
  bounded : s.pushed.length - s.popped.length ≤ cap
  /-- `pop` reads the oldest value in flight, never an uninitialised slot. -/
  reads : s.consumer ≠ .fault ∧ ∀ head, s.consumer = .read head →
    ∃ v, s.ring.slot head = some v ∧ s.pushed[s.popped.length]? = some v
  /-- A push comes to fail in the step that loads `head`, with the ring full. -/
  full : ∀ l t v, step w s l = some t → t.producer = .ret (.error v) →
    s.producer ≠ .ret (.error v) →
    (∃ tail, s.producer = .loadHead v tail) ∧ s.pushed.length - s.popped.length = cap
  /-- A pop comes to find nothing in the step that loads `tail`, with the ring empty. -/
  empty : ∀ l t, step w s l = some t → t.consumer = .ret none → s.consumer ≠ .ret none →
    (∃ head, s.consumer = .loadTail head) ∧ s.popped = s.pushed
  /-- A push works on the value it was called with. -/
  called : ∀ l t v, step w s l = some t → t.producer.value = some v →
    l = .push v ∨ s.producer.value = some v
  /-- `pushed` grows just in the step in which a push comes to succeed, by the value of that push. -/
  accepted : ∀ l t, step w s l = some t →
    (t.pushed = s.pushed ∧ (t.producer = .ret (.ok ()) → s.producer = .ret (.ok ()))) ∨
      ∃ v, s.producer.value = some v ∧ t.producer = .ret (.ok ()) ∧ t.pushed = s.pushed ++ [v]
  /-- `popped` grows just in the step in which a pop comes to return a value, by that value. -/
  delivered : ∀ l t, step w s l = some t →
    (t.popped = s.popped ∧ ∀ v, t.consumer = .ret (some v) → s.consumer = .ret (some v)) ∨
      ∃ v, t.consumer = .ret (some v) ∧ t.popped = s.popped ++ [v]
  /-- With no call in progress, dropping the ring drops each value in flight once. -/
  dropped : s.producer = .idle → s.consumer = .idle →
    s.ring.drop w = some (s.pushed.drop s.popped.length)

/-- What a step of the consumer can do: it leaves the producer and `pushed` alone, and only the store of
`head` hands out a value. -/
theorem stepConsumer_spec {w : ℕ} {s t : State T} (hst : stepConsumer w s = some t) :
    (t.producer = s.producer ∧ t.pushed = s.pushed) ∧
      ((t.popped = s.popped ∧ ∀ v, t.consumer = .ret (some v) → s.consumer = .ret (some v)) ∨
        ∃ v, t.consumer = .ret (some v) ∧ t.popped = s.popped ++ [v]) := by
  cases hpc : s.consumer with
  | idle | fault => simp [stepConsumer, hpc] at hst
  | loadHead =>
      simp only [stepConsumer, hpc, Option.some.injEq] at hst
      subst hst
      exact ⟨⟨rfl, rfl⟩, .inl ⟨rfl, nofun⟩⟩
  | storeHead head v =>
      simp only [stepConsumer, hpc, Option.some.injEq] at hst
      subst hst
      exact ⟨⟨rfl, rfl⟩, .inr ⟨v, rfl, rfl⟩⟩
  | loadTail | read =>
      simp only [stepConsumer, hpc] at hst
      split at hst <;> cases hst <;> exact ⟨⟨rfl, rfl⟩, .inl ⟨rfl, nofun⟩⟩
  | ret r =>
      simp only [stepConsumer, hpc, Option.some.injEq] at hst
      subst hst
      unfold afterPop
      split
      · exact ⟨⟨rfl, rfl⟩, .inl ⟨rfl, nofun⟩⟩
      · split
        · exact ⟨⟨rfl, rfl⟩, .inl ⟨rfl, nofun⟩⟩
        · split <;> exact ⟨⟨rfl, rfl⟩, .inl ⟨rfl, nofun⟩⟩

/-- What a step of the producer can do: it leaves the consumer and `popped` alone, keeps its value, and
only the store of `tail` publishes it. -/
theorem stepProducer_spec {w : ℕ} {s t : State T} (hst : stepProducer w s = some t) :
    (t.consumer = s.consumer ∧ t.popped = s.popped) ∧
      (∀ v, t.producer.value = some v → s.producer.value = some v) ∧
      ((t.pushed = s.pushed ∧ (t.producer = .ret (.ok ()) → s.producer = .ret (.ok ()))) ∨
        ∃ v, s.producer.value = some v ∧ t.producer = .ret (.ok ()) ∧ t.pushed = s.pushed ++ [v]) := by
  cases hpc : s.producer with
  | idle => simp [stepProducer, hpc] at hst
  | loadTail | write =>
      simp only [stepProducer, hpc, Option.some.injEq] at hst
      subst hst
      exact ⟨⟨rfl, rfl⟩, fun _ hv => hv, .inl ⟨rfl, nofun⟩⟩
  | ret =>
      simp only [stepProducer, hpc, Option.some.injEq] at hst
      subst hst
      exact ⟨⟨rfl, rfl⟩, nofun, .inl ⟨rfl, nofun⟩⟩
  | storeTail x tail =>
      simp only [stepProducer, hpc, Option.some.injEq] at hst
      subst hst
      exact ⟨⟨rfl, rfl⟩, nofun, .inr ⟨x, rfl, rfl, rfl⟩⟩
  | loadHead =>
      simp only [stepProducer, hpc] at hst
      split at hst <;> cases hst <;> exact ⟨⟨rfl, rfl⟩, fun _ hv => hv, .inl ⟨rfl, nofun⟩⟩

/-- The start of a call changes only the program point of its side. -/
theorem step_call {w : ℕ} {s t : State T} {l : Label T} (hst : step w s l = some t) :
    stepProducer w s = some t ∨ stepConsumer w s = some t ∨
      ((t.pushed = s.pushed ∧ t.popped = s.popped) ∧
        ((∃ v, l = .push v ∧ t.producer = .loadTail v) ∨ t.producer = s.producer) ∧
        (t.consumer = .loadHead ∨ t.consumer = s.consumer)) := by
  cases l with
  | producer => exact .inl hst
  | consumer => exact .inr (.inl hst)
  | push v =>
      simp only [step] at hst
      split at hst <;> cases hst
      exact .inr (.inr ⟨⟨rfl, rfl⟩, .inl ⟨v, rfl, rfl⟩, .inr rfl⟩)
  | pop =>
      simp only [step] at hst
      split at hst <;> cases hst
      exact .inr (.inr ⟨⟨rfl, rfl⟩, .inr rfl, .inl rfl⟩)
  | drain max =>
      simp only [step] at hst
      split at hst
      · split at hst <;> cases hst
        · exact .inr (.inr ⟨⟨rfl, rfl⟩, .inr rfl, .inl rfl⟩)
        · exact .inr (.inr ⟨⟨rfl, rfl⟩, .inr rfl, .inr rfl⟩)
      · cases hst

theorem step_called {w : ℕ} {s t : State T} {l : Label T} {v : T} (hst : step w s l = some t)
    (hv : t.producer.value = some v) : l = .push v ∨ s.producer.value = some v := by
  rcases step_call hst with hp | hc | ⟨-, ⟨x, hl, hx⟩ | hkeep, -⟩
  · exact .inr ((stepProducer_spec hp).2.1 v hv)
  · exact .inr ((stepConsumer_spec hc).1.1 ▸ hv)
  · rw [hx, ProducerPc.value, Option.some.injEq] at hv
    exact .inl (hv ▸ hl)
  · exact .inr (hkeep ▸ hv)

theorem step_accepted {w : ℕ} {s t : State T} {l : Label T} (hst : step w s l = some t) :
    (t.pushed = s.pushed ∧ (t.producer = .ret (.ok ()) → s.producer = .ret (.ok ()))) ∨
      ∃ v, s.producer.value = some v ∧ t.producer = .ret (.ok ()) ∧ t.pushed = s.pushed ++ [v] := by
  rcases step_call hst with hp | hc | ⟨hpush, ⟨x, -, hx⟩ | hkeep, -⟩
  · exact (stepProducer_spec hp).2.2
  · obtain ⟨hprod, hpushed⟩ := (stepConsumer_spec hc).1
    exact .inl ⟨hpushed, fun h => hprod ▸ h⟩
  · exact .inl ⟨hpush.1, fun h => by rw [hx] at h; cases h⟩
  · exact .inl ⟨hpush.1, fun h => hkeep ▸ h⟩

theorem step_delivered {w : ℕ} {s t : State T} {l : Label T} (hst : step w s l = some t) :
    (t.popped = s.popped ∧ ∀ v, t.consumer = .ret (some v) → s.consumer = .ret (some v)) ∨
      ∃ v, t.consumer = .ret (some v) ∧ t.popped = s.popped ++ [v] := by
  rcases step_call hst with hp | hc | ⟨hpush, -, hcons | hkeep⟩
  · obtain ⟨hcons, hpopped⟩ := (stepProducer_spec hp).1
    exact .inl ⟨hpopped, fun _ h => hcons ▸ h⟩
  · exact (stepConsumer_spec hc).2
  · exact .inl ⟨hpush.2, fun v h => by rw [hcons] at h; cases h⟩
  · exact .inl ⟨hpush.2, fun _ h => hkeep ▸ h⟩

/-- The only step that turns a push into a failure is the load of `head`. -/
theorem Inv.full {w c : ℕ} {s t : State T} (hc : c < w) (h : Inv w (2 ^ c) s) {l : Label T} {v : T}
    (hst : step w s l = some t) (ht : t.producer = .ret (.error v))
    (hs : s.producer ≠ .ret (.error v)) :
    (∃ tail, s.producer = .loadHead v tail) ∧ s.pushed.length - s.popped.length = 2 ^ c := by
  rcases step_call hst with hst | hst | ⟨-, ⟨x, -, hx⟩ | hkeep, -⟩
  · have hp := h.producer
    unfold ProducerOk at hp
    cases hpc : s.producer with
    | loadHead x tail =>
        simp only [hpc] at hp
        simp only [stepProducer, hpc] at hst
        split at hst
        · rename_i hfull
          cases hst
          simp only [ProducerPc.ret.injEq, Except.error.injEq] at ht
          subst ht
          -- nobody else moves `tail`, so the difference is the number of values in flight
          rw [hp, ← h.tail, h.inFlight hc, h.len] at hfull
          exact ⟨⟨tail, rfl⟩, hfull⟩
        · cases hst
          simp at ht
    | idle | loadTail | write | storeTail | ret =>
        simp only [stepProducer, hpc] at hst
        cases hst <;> simp at ht
  · exact absurd ((stepConsumer_spec hst).1.1 ▸ ht) hs
  · rw [hx] at ht
    cases ht
  · exact absurd (hkeep ▸ ht) hs

/-- The only step that makes a pop come back empty-handed is the load of `tail`. -/
theorem Inv.empty {w c : ℕ} {s t : State T} (hc : c < w) (h : Inv w (2 ^ c) s) {l : Label T}
    (hst : step w s l = some t) (ht : t.consumer = .ret none) (hs : s.consumer ≠ .ret none) :
    (∃ head, s.consumer = .loadTail head) ∧ s.popped = s.pushed := by
  rcases step_call hst with hst | hst | ⟨-, -, hcall | hkeep⟩
  · exact absurd ((stepProducer_spec hst).1.1 ▸ ht) hs
  · have hcons := h.consumer
    unfold ConsumerOk at hcons
    cases hpc : s.consumer with
    | loadTail head =>
        simp only [hpc] at hcons
        simp only [stepConsumer, hpc] at hst
        split at hst
        · rename_i heq
          exact ⟨⟨head, rfl⟩, (h.empty_iff hc).mp (by rw [h.head, ← hcons, heq])⟩
        · cases hst
          simp at ht
    | ret r =>
        -- a drain that goes on or ends is not a pop that returns
        simp only [stepConsumer, hpc, Option.some.injEq] at hst
        subst hst
        unfold afterPop at ht
        split at ht
        · simp at ht
        · split at ht
          · simp at ht
          · split at ht <;> simp at ht
    | read head =>
        simp only [stepConsumer, hpc] at hst
        split at hst <;> cases hst <;> simp at ht
    | idle | loadHead | storeHead | fault =>
        simp only [stepConsumer, hpc] at hst
        cases hst <;> simp at ht
  · rw [hcall] at ht
    cases ht
  · exact absurd (hkeep ▸ ht) hs

/-- **The SPSC ring is a bounded FIFO queue**, for every requested capacity whose rounding leaves
the top bit of the word free, in every state of every interleaving of the two endpoints. -/
theorem spsc_boundedFifo {w capacity : ℕ} (hcap : roundedCap capacity ≤ 2 ^ (w - 1)) {s : State T}
    (hs : (machine T w capacity).Reachable s) : BoundedFifo w (roundedCap capacity) s := by
  have hi := reachable_inv hcap hs
  have hc := exponent_lt hcap
  rw [roundedCap_eq] at hi ⊢
  refine
    { order := hi.prefixed
      inFlight := hi.inFlight hc
      bounded := Nat.sub_le_iff_le_add'.mpr hi.bounded
      reads := ⟨?_, ?_⟩
      full := fun l t v => hi.full hc
      empty := fun l t => hi.empty hc
      called := fun l t v => step_called
      accepted := fun l t => step_accepted
      delivered := fun l t => step_delivered
      dropped := fun _ _ => hi.drop_eq hc }
  · intro hf
    have hcons := hi.consumer
    simp [ConsumerOk, hf] at hcons
  · intro head hpc
    have hcons := hi.consumer
    simp only [ConsumerOk, hpc] at hcons
    obtain ⟨hhead, hlt⟩ := hcons
    refine ⟨s.pushed.get ⟨_, hlt⟩, ?_, List.getElem?_eq_getElem hlt⟩
    rw [hhead, hi.slot_live hc le_rfl hlt]
    exact List.getElem?_eq_getElem hlt

/-- A whole push. -/
def pushing (v : ℕ) : List (Label ℕ) := .push v :: List.replicate 5 .producer

/-- A whole pop. -/
def popping : List (Label ℕ) := .pop :: List.replicate 5 .consumer

/-- Two-bit words: three values go through, two more are pushed over the wraparound of `tail`, and a pop
gets as far as its slot read. -/
def sampleSchedule : List (Label ℕ) :=
  pushing 7 ++ popping ++ pushing 8 ++ popping ++ pushing 9 ++ popping ++ pushing 10 ++ pushing 11 ++
    [.pop, .consumer, .consumer]

def sampleState : State ℕ where
  ring := { buf := [some 11, some 10], mask := 1, tail := 1, head := 3 }
  producer := .idle
  consumer := .read 3
  drain := none
  pushed := [7, 8, 9, 10, 11]
  popped := [7, 8, 9]

theorem spsc_boundedFifo_sample :
    roundedCap 0 ≤ 2 ^ (2 - 1) ∧ (machine ℕ 2 0).Reachable sampleState ∧
      BoundedFifo 2 (roundedCap 0) sampleState := by
  have hcap : roundedCap 0 ≤ 2 ^ (2 - 1) := by decide
  have hrun : Machine.runFn (step 2) (initial ℕ 0) sampleSchedule = some sampleState := rfl
  have hs : (machine ℕ 2 0).Reachable sampleState := Machine.reachable_of_runFn hrun
  exact ⟨hcap, hs, spsc_boundedFifo hcap hs⟩

end ZeroKv.Spsc
